import Mathlib.Data.List.MinMax
import Mathlib.Order.Bounds.Basic
import Mathlib.Order.Nat
import TaintAnalysis.Proofs.Calls.Levels

/-!
# The level of a component is its height

A component lies above another one if it can call into it. The level on which a
component is placed is then the length of the longest chain of components below
it. No chain is longer, because a call out of a component goes to a lower level
(`lt_of_calls`). Some chain is as long, because a component that was not ready
one level earlier calls into the level that was missing (`exists_callee_below`).

Heights can also be computed in one go if the components come with callees first:
one more than the highest component that is called, or 0 (`heightsAlong`). Whatever
the order is otherwise, these are the levels.
-/

namespace TaintAnalysis.CallGraph

open Program

variable {p : Program} {a b : String} {c d e : Component} {i j : Nat}
  {done : List String} {waiting level lower : List Component} {levels : List (List Component)}

/-- The component is placed on the level. -/
def OnLevel (p : Program) (c : Component) (i : Nat) : Prop :=
  ∃ level, (ofProgram p).levels[i]? = some level ∧ c ∈ level

/-- A component can call into another one. -/
def Above (p : Program) (c d : Component) : Prop :=
  c ≠ d ∧ ∃ a ∈ c.functions, ∃ b ∈ d.functions, p.CanCall a b

/-- The components of a list lie below a component, and each below those before it. -/
structure Descends (p : Program) (c : Component) (chain : List Component) : Prop where
  components : ∀ d ∈ chain, d ∈ (ofProgram p).components
  ordered : (c :: chain).Pairwise (Above p)

/-! ## Every component is on one level -/

theorem exists_onLevel_iff : (∃ i, OnLevel p c i) ↔ c ∈ (ofProgram p).components := by
  rw [← (flatten_levels p).mem_iff, List.mem_flatten]
  constructor
  · intro h
    obtain ⟨i, level, hlevel, hc⟩ := h
    exact ⟨level, List.mem_of_getElem? hlevel, hc⟩
  · intro h
    obtain ⟨level, hlevel, hc⟩ := h
    obtain ⟨i, hi⟩ := List.getElem?_of_mem hlevel
    exact ⟨i, level, hi, hc⟩

theorem OnLevel.mem_components (h : OnLevel p c i) : c ∈ (ofProgram p).components :=
  exists_onLevel_iff.mp ⟨i, h⟩

theorem exists_mem_functions (hc : c ∈ (ofProgram p).components) : ∃ a, a ∈ c.functions := by
  obtain ⟨a, ha, rfl⟩ := mem_components_iff.mp hc
  exact ⟨a, mem_componentOf_self ha⟩

theorem eq_of_mem_functions (hc : c ∈ (ofProgram p).components)
    (hd : d ∈ (ofProgram p).components) (h : a ∈ c.functions) (h' : a ∈ d.functions) : c = d :=
  (componentOf_of_mem hc h).symm.trans (componentOf_of_mem hd h')

theorem mem_functionsOf_of_mem (hlevel : levels[i]? = some level) (hc : c ∈ level)
    (ha : a ∈ c.functions) : a ∈ functionsOf levels :=
  List.mem_flatMap.mpr ⟨c, List.mem_flatten.mpr ⟨level, List.mem_of_getElem? hlevel, hc⟩, ha⟩

theorem functionsOf_append (xs ys : List (List Component)) :
    functionsOf (xs ++ ys) = functionsOf xs ++ functionsOf ys := by
  rw [functionsOf, List.flatten_append, List.flatMap_append]
  rfl

/-- The levels before one hold the functions of the components below it and no others. -/
theorem mem_functionsOf_take_iff (hc : OnLevel p c i) (ha : a ∈ c.functions) :
    a ∈ functionsOf ((ofProgram p).levels.take j) ↔ i < j := by
  obtain ⟨level, hlevel, hmem⟩ := hc
  have hnodup := nodup_functionsOf_levels p
  rw [← List.take_append_drop j (ofProgram p).levels, functionsOf_append,
    List.nodup_append] at hnodup
  constructor
  · intro h
    by_contra hlt
    refine hnodup.2.2 a h a ?_ rfl
    have hdrop : ((ofProgram p).levels.drop j)[i - j]? = some level := by
      rw [List.getElem?_drop, ← hlevel]
      congr 1
      omega
    exact mem_functionsOf_of_mem hdrop hmem ha
  · intro h
    have htake : ((ofProgram p).levels.take j)[i]? = some level := by
      rw [List.getElem?_take_of_lt h, hlevel]
    exact mem_functionsOf_of_mem htake hmem ha

theorem OnLevel.unique (h : OnLevel p c i) (h' : OnLevel p c j) : i = j := by
  obtain ⟨a, ha⟩ := exists_mem_functions h.mem_components
  have hle (n : Nat) : i < n ↔ j < n :=
    (mem_functionsOf_take_iff h ha).symm.trans (mem_functionsOf_take_iff h' ha)
  have h₁ := hle (i + 1)
  have h₂ := hle (j + 1)
  omega

/-! ## Calls lead to lower levels -/

theorem Layered.mem_take (h : Layered p done levels) (hlevel : levels[i]? = some level)
    (hc : c ∈ level) (ha : a ∈ c.functions) (hcall : p.Calls a b) :
    b ∈ c.functions ∨ b ∈ done ∨ b ∈ functionsOf (levels.take i) := by
  induction h generalizing i with
  | nil => simp at hlevel
  | @cons done first levels calls _ ih =>
      cases i with
      | zero =>
          obtain rfl : first = level := by simpa using hlevel
          exact (calls c hc a ha b hcall).imp_right .inl
      | succ i =>
          have hsplit : functionsOf ((first :: levels).take (i + 1)) =
              first.flatMap (·.functions) ++ functionsOf (levels.take i) := by
            simp only [functionsOf, List.take_succ_cons, List.flatten_cons, List.flatMap_append]
          rw [hsplit, List.mem_append]
          rcases ih (by simpa using hlevel) with h | h | h
          · exact .inl h
          · exact .inr ((List.mem_append.mp h).imp_right .inl)
          · exact .inr (.inr (.inr h))

/-- What a component calls elsewhere, the levels before its own hold. -/
theorem OnLevel.mem_take (hc : OnLevel p c i) (ha : a ∈ c.functions) (hcall : p.Calls a b)
    (hb : b ∉ c.functions) : b ∈ functionsOf ((ofProgram p).levels.take i) := by
  obtain ⟨level, hlevel, hmem⟩ := hc
  rcases (layered_levels p).mem_take hlevel hmem ha hcall with h | h | h
  · exact absurd h hb
  · exact absurd h List.not_mem_nil
  · exact h

theorem lt_of_calls (hc : OnLevel p c i) (hd : OnLevel p d j) (ha : a ∈ c.functions)
    (hb : b ∈ d.functions) (hcall : p.Calls a b) : c = d ∨ j < i := by
  by_cases hin : b ∈ c.functions
  · exact .inl (eq_of_mem_functions hc.mem_components hd.mem_components hin hb)
  · exact .inr ((mem_functionsOf_take_iff hd hb).mp (hc.mem_take ha hcall hin))

theorem lt_of_canCall (hc : OnLevel p c i) (hd : OnLevel p d j) (ha : a ∈ c.functions)
    (hb : b ∈ d.functions) (hcan : p.CanCall a b) : c = d ∨ j < i := by
  induction hcan generalizing d j with
  | refl => exact .inl (eq_of_mem_functions hc.mem_components hd.mem_components ha hb)
  | @tail x y _ hxy ih =>
      -- the last caller is in a component between the two
      obtain ⟨m, he⟩ := exists_onLevel_iff.mpr (componentOf_mem_components hxy.left_mem)
      have hx := mem_componentOf_self hxy.left_mem
      rcases ih he hx with rfl | hlt
      · exact lt_of_calls hc hd hx hb hxy
      · rcases lt_of_calls he hd hx hb hxy with rfl | hlt'
        · exact .inr (hd.unique he ▸ hlt)
        · exact .inr (by omega)

theorem Above.lt (h : Above p c d) (hc : OnLevel p c i) (hd : OnLevel p d j) : j < i := by
  obtain ⟨hne, a, ha, b, hb, hcan⟩ := h
  exact (lt_of_canCall hc hd ha hb hcan).resolve_left hne

/-! ## A level has a component right below -/

theorem levelsFrom_head {budget : Nat}
    (hlevel : ((ofProgram p).levelsFrom budget done waiting)[0]? = some level) (hc : c ∈ level) :
    c ∈ waiting ∧ (ofProgram p).isReady done c = true := by
  cases budget with
  | zero => simp [levelsFrom] at hlevel
  | succ budget =>
      rw [levelsFrom] at hlevel
      split at hlevel
      · simp at hlevel
      · rw [List.partition_eq_filter_filter, List.getElem?_cons_zero, Option.some.injEq] at hlevel
        exact List.mem_filter.mp (hlevel ▸ hc)

/-- A component that had to wait for a level calls into it. -/
theorem levelsFrom_succ {budget : Nat}
    (hlevel : ((ofProgram p).levelsFrom budget done waiting)[i + 1]? = some level)
    (hc : c ∈ level) :
    ∃ lower, ((ofProgram p).levelsFrom budget done waiting)[i]? = some lower ∧
      ∃ d ∈ lower, ∃ a ∈ c.functions, ∃ b ∈ d.functions, p.Calls a b ∧ b ∉ c.functions := by
  induction budget generalizing done waiting i with
  | zero => simp [levelsFrom] at hlevel
  | succ budget ih =>
      rw [levelsFrom] at hlevel ⊢
      split at hlevel
      · simp at hlevel
      · next hne =>
        rw [if_neg hne]
        rw [List.partition_eq_filter_filter, List.getElem?_cons_succ] at hlevel
        rw [List.partition_eq_filter_filter]
        cases i with
        | succ i => exact ih hlevel
        | zero =>
            obtain ⟨hwaits, hready⟩ := levelsFrom_head hlevel hc
            have hnot : ¬ (ofProgram p).isReady done c = true := by
              simpa using (List.mem_filter.mp hwaits).2
            rw [isReady_iff] at hready hnot
            push Not at hnot
            obtain ⟨a, ha, b, hcall, hb, hdone⟩ := hnot
            have hnow := (hready a ha b hcall).resolve_left hb
            obtain ⟨d, hd, hbd⟩ :=
              List.mem_flatMap.mp ((List.mem_append.mp hnow).resolve_left hdone)
            exact ⟨_, rfl, d, hd, a, ha, b, hbd, hcall, hb⟩

theorem exists_callee_below (hc : OnLevel p c (i + 1)) :
    ∃ d, OnLevel p d i ∧ ∃ a ∈ c.functions, ∃ b ∈ d.functions, p.Calls a b ∧ b ∉ c.functions := by
  obtain ⟨level, hlevel, hmem⟩ := hc
  obtain ⟨lower, hlower, d, hd, hcalls⟩ := levelsFrom_succ hlevel hmem
  exact ⟨d, ⟨lower, hlower, hd⟩, hcalls⟩

/-! ## Chains of components -/

theorem Above.of_calls (ha : a ∈ c.functions) (hb : b ∈ d.functions) (hcall : p.Calls a b)
    (hout : b ∉ c.functions) : Above p c d :=
  ⟨fun h => hout (h ▸ hb), a, ha, b, hb, .single hcall⟩

theorem Above.trans (hd : d ∈ (ofProgram p).components) (h : Above p c d) (h' : Above p d e)
    (hc : OnLevel p c i) (he : OnLevel p e j) : Above p c e := by
  obtain ⟨m, hm⟩ := exists_onLevel_iff.mpr hd
  refine ⟨fun heq => ?_, ?_⟩
  · have hlt := h.lt hc hm
    have hlt' := h'.lt hm he
    subst heq
    have := hc.unique he
    omega
  · obtain ⟨-, a, ha, b, hb, hab⟩ := h
    obtain ⟨-, b', hb', x, hx, hbx⟩ := h'
    have hwithin := ((mem_component_iff hd hb).mp hb').1
    exact ⟨a, ha, x, hx, hab.trans (hwithin.trans hbx)⟩

theorem Descends.length_le {chain : List Component} (h : Descends p c chain) (hc : OnLevel p c i) :
    chain.length ≤ i := by
  induction chain generalizing c i with
  | nil => exact Nat.zero_le i
  | cons d rest ih =>
      obtain ⟨j, hd⟩ := exists_onLevel_iff.mpr (h.components d List.mem_cons_self)
      obtain ⟨habove, hordered⟩ := List.pairwise_cons.mp h.ordered
      have hlt := (habove d List.mem_cons_self).lt hc hd
      have hrest := ih ⟨fun e he => h.components e (List.mem_cons_of_mem d he), hordered⟩ hd
      rw [List.length_cons]
      omega

theorem OnLevel.exists_descends (hc : OnLevel p c i) :
    ∃ chain, Descends p c chain ∧ chain.length = i := by
  induction i generalizing c with
  | zero => exact ⟨[], ⟨by simp, by simp⟩, rfl⟩
  | succ i ih =>
      obtain ⟨d, hd, a, ha, b, hb, hcall, hout⟩ := exists_callee_below hc
      obtain ⟨chain, hchain, hlen⟩ := ih hd
      have habove := Above.of_calls ha hb hcall hout
      refine ⟨d :: chain, ⟨?_, List.pairwise_cons.mpr ⟨?_, hchain.ordered⟩⟩, by simp [hlen]⟩
      · intro e he
        rcases List.mem_cons.mp he with rfl | he
        · exact hd.mem_components
        · exact hchain.components e he
      · intro e he
        rcases List.mem_cons.mp he with rfl | he
        · exact habove
        · obtain ⟨j, hj⟩ := exists_onLevel_iff.mpr (hchain.components e he)
          exact habove.trans hd.mem_components ((List.pairwise_cons.mp hchain.ordered).1 e he) hc hj

theorem OnLevel.isGreatest (hc : OnLevel p c i) :
    IsGreatest {n | ∃ chain, Descends p c chain ∧ chain.length = n} i := by
  refine ⟨hc.exists_descends, ?_⟩
  intro n hn
  obtain ⟨chain, hchain, rfl⟩ := hn
  exact hchain.length_le hc

/-! ## Heights along an order -/

/-- The height that is known for the component of a function, or 0. -/
def knownHeight (known : List (Component × Nat)) (name : String) : Nat :=
  ((known.find? fun e => decide (name ∈ e.1.functions)).map Prod.snd).getD 0

/-- The callees of a component that are not in it. -/
def calleesOutside (g : CallGraph) (c : Component) : List String :=
  (c.functions.flatMap g.callees).filter fun name => decide (name ∉ c.functions)

/-- One more than the highest component that a component calls, or 0 if it calls no other one. -/
def heightOver (g : CallGraph) (known : List (Component × Nat)) (c : Component) : Nat :=
  ((g.calleesOutside c).map fun name => knownHeight known name + 1).foldr max 0

/-- The heights of components, computed one after the other. -/
def heightsAlong (g : CallGraph) (order : List Component) : List (Component × Nat) :=
  order.foldl (fun known c => known ++ [(c, g.heightOver known c)]) []

variable {known : List (Component × Nat)}

theorem mem_calleesOutside_iff : b ∈ (ofProgram p).calleesOutside c ↔
    (∃ a ∈ c.functions, p.Calls a b) ∧ b ∉ c.functions := by
  simp only [calleesOutside, callees, sorted, List.mem_filter, List.mem_flatMap,
    List.mem_mergeSort, mem_successors_iff, decide_eq_true_iff]

theorem knownHeight_eq (hknown : ∀ e ∈ known, OnLevel p e.1 e.2) (hd : OnLevel p d j)
    (hmem : d ∈ known.map Prod.fst) (hb : b ∈ d.functions) : knownHeight known b = j := by
  obtain ⟨x, hx, rfl⟩ := List.mem_map.mp hmem
  obtain ⟨e, he⟩ := Option.isSome_iff_exists.mp
    (List.find?_isSome (p := fun e : Component × Nat => decide (b ∈ e.1.functions)).mpr
      ⟨x, hx, decide_eq_true hb⟩)
  have hlevel := hknown e (List.mem_of_find?_eq_some he)
  have hfound := List.find?_some he
  have hbe : b ∈ e.1.functions := of_decide_eq_true hfound
  rw [knownHeight, he, Option.map_some, Option.getD_some]
  have hsame := eq_of_mem_functions hlevel.mem_components hd.mem_components hbe hb
  exact hlevel.unique (hsame ▸ hd)

/-- A height is the level if the heights of all components that are called are the levels. -/
theorem heightOver_eq (hknown : ∀ e ∈ known, OnLevel p e.1 e.2) (hc : OnLevel p c i)
    (hcallees : ∀ d ∈ (ofProgram p).components, Above p c d → d ∈ known.map Prod.fst) :
    (ofProgram p).heightOver known c = i := by
  refine Nat.le_antisymm (List.max_le_of_forall_le _ i fun n hn => ?_) ?_
  · obtain ⟨b, hb, rfl⟩ := List.mem_map.mp hn
    obtain ⟨⟨a, ha, hcall⟩, hout⟩ := mem_calleesOutside_iff.mp hb
    have hd := componentOf_mem_components hcall.right_mem
    have hbd := mem_componentOf_self hcall.right_mem
    obtain ⟨j, hj⟩ := exists_onLevel_iff.mpr hd
    have habove := Above.of_calls ha hbd hcall hout
    have hlt := habove.lt hc hj
    rw [knownHeight_eq hknown hj (hcallees _ hd habove) hbd]
    omega
  · cases i with
    | zero => exact Nat.zero_le _
    | succ i =>
        obtain ⟨d, hd, a, ha, b, hb, hcall, hout⟩ := exists_callee_below hc
        have hmem := hcallees d hd.mem_components (Above.of_calls ha hb hcall hout)
        have hcallee : b ∈ (ofProgram p).calleesOutside c :=
          mem_calleesOutside_iff.mpr ⟨⟨a, ha, hcall⟩, hout⟩
        refine List.le_max_of_le (List.mem_map_of_mem hcallee) ?_
        rw [knownHeight_eq hknown hd hmem hb]

theorem foldl_heightOver (known : List (Component × Nat)) {rest : List Component}
    (hall : ∀ c, c ∈ (ofProgram p).components ↔ c ∈ known.map Prod.fst ∨ c ∈ rest)
    (hrest : rest.Pairwise fun c d => ¬ Above p c d) (hknown : ∀ e ∈ known, OnLevel p e.1 e.2) :
    let heights := rest.foldl
      (fun known c => known ++ [(c, (ofProgram p).heightOver known c)]) known
    heights.map Prod.fst = known.map Prod.fst ++ rest ∧ ∀ e ∈ heights, OnLevel p e.1 e.2 := by
  induction rest generalizing known with
  | nil => exact ⟨by simp, hknown⟩
  | cons c rest ih =>
      obtain ⟨hlater, hrest⟩ := List.pairwise_cons.mp hrest
      obtain ⟨i, hc⟩ := exists_onLevel_iff.mpr ((hall c).mpr (.inr List.mem_cons_self))
      have hheight : (ofProgram p).heightOver known c = i := by
        refine heightOver_eq hknown hc fun d hd habove => ?_
        rcases (hall d).mp hd with h | h
        · exact h
        · rcases List.mem_cons.mp h with rfl | h
          · exact absurd rfl habove.1
          · exact absurd habove (hlater d h)
      obtain ⟨hkeys, hlevels⟩ := ih (known ++ [(c, i)])
        (fun d => by simp only [hall d, List.map_append, List.map_cons, List.map_nil,
          List.mem_append, List.mem_cons, List.not_mem_nil, or_false, or_assoc])
        hrest (by simpa [or_imp, forall_and, hc] using hknown)
      rw [List.foldl_cons, hheight]
      exact ⟨by rw [hkeys]; simp, hlevels⟩

/-- The levels themselves have callees first. -/
theorem pairwise_flatten_levels (p : Program) :
    (ofProgram p).levels.flatten.Pairwise fun c d => ¬ Above p c d := by
  refine List.pairwise_flatten.mpr ⟨fun level hlevel => ?_, ?_⟩
  · obtain ⟨i, hi⟩ := List.getElem?_of_mem hlevel
    refine List.pairwise_of_forall_mem_list fun c hc d hd habove => ?_
    exact Nat.lt_irrefl i (habove.lt ⟨level, hi, hc⟩ ⟨level, hi, hd⟩)
  · refine List.pairwise_iff_getElem.mpr fun i j hi hj hij c hc d hd habove => ?_
    have hlt := habove.lt ⟨_, List.getElem?_eq_getElem hi, hc⟩ ⟨_, List.getElem?_eq_getElem hj, hd⟩
    omega

/-- Along any order with callees first, the heights of all components are their levels. -/
theorem heightsAlong_eq {order : List Component} (hall : order.Perm (ofProgram p).components)
    (horder : order.Pairwise fun c d => ¬ Above p c d) :
    ((ofProgram p).heightsAlong order).map Prod.fst = order ∧
      ∀ e ∈ (ofProgram p).heightsAlong order, OnLevel p e.1 e.2 := by
  have h := foldl_heightOver (p := p) []
    (fun c => by simp [hall.mem_iff]) horder (by simp)
  exact ⟨h.1.trans (List.nil_append order), h.2⟩

end TaintAnalysis.CallGraph
