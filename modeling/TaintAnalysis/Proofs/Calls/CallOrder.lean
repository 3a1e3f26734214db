import TaintAnalysis.Proofs.Calls.Heights
import TaintAnalysis.Proofs.Calls.Modularity
import TaintAnalysis.Proofs.Program.Validation

/-!
# Callees are finished before their callers

A function is analyzed against the table of the levels below its component, or,
if the component is recursive, against tables that the passes make of it
(`Consults`). The passes write only what the component has, so whatever a function
calls elsewhere is still what the lower levels left, and these are recorded for
good (`Progress.before_outcomes`).
-/

namespace TaintAnalysis

namespace CallGraph

open Program

variable {p : Program} {a b : String} {c : Component} {done : List String}
  {lower upper : List (List Component)}

/-- The levels can be cut anywhere. -/
theorem Layered.split (h : Layered p done (lower ++ upper)) :
    Layered p done lower ∧ Layered p (done ++ functionsOf lower) upper := by
  induction lower generalizing done with
  | nil => exact ⟨.nil, by simpa [functionsOf] using h⟩
  | cons level rest ih =>
      cases h with
      | cons calls above =>
          obtain ⟨hrest, hupper⟩ := ih above
          refine ⟨.cons calls hrest, ?_⟩
          simpa [functionsOf, List.append_assoc] using hupper

/-- A component is recursive if a function of it can call itself. -/
theorem isRecursive_iff (hc : c ∈ (ofProgram p).components) :
    c.isRecursive = true ↔ ∃ a ∈ c.functions, Relation.TransGen p.Calls a a := by
  constructor
  · intro h
    obtain ⟨a, ha⟩ := exists_mem_functions hc
    have hap := mem_names_of_mem_component hc ha
    refine ⟨a, ha, ?_⟩
    obtain rfl := componentOf_of_mem hc ha
    rw [componentOf, Bool.or_eq_true, decide_eq_true_iff, decide_eq_true_iff] at h
    rcases h with hmany | hself
    · -- another function of the component is called and calls back
      obtain ⟨b, hb, hne⟩ : ∃ b ∈ ((ofProgram p).componentOf a).functions, b ≠ a := by
        by_contra hall
        push Not at hall
        have hsub : ((ofProgram p).componentOf a).functions ⊆ [a] := fun b hb =>
          List.mem_singleton.mpr (hall b hb)
        have hlen := (List.subperm_of_subset (nodup_componentOf p a) hsub).length_le
        rw [componentOf, sorted, List.length_mergeSort, List.length_singleton] at hlen
        omega
      obtain ⟨hab, hba⟩ := (mem_componentOf_iff hap).mp hb
      rcases Relation.reflTransGen_iff_eq_or_transGen.mp hab with rfl | hab
      · exact absurd rfl hne
      · exact hab.trans_left hba
    · exact .single (mem_successors_iff.mp hself)
  · intro h
    obtain ⟨a, ha, hloop⟩ := h
    by_contra hrec
    obtain ⟨hsingle, hself⟩ := functions_of_not_recursive hc (Bool.eq_false_iff.mpr hrec) ha
    obtain ⟨x, hax, hxa⟩ := Relation.TransGen.head'_iff.mp hloop
    have hx := (mem_component_iff hc ha).mpr ⟨.single hax, hxa⟩
    obtain rfl : x = a := List.mem_singleton.mp (hsingle ▸ hx)
    exact hself hax

end CallGraph

namespace Component

variable {p : Program} {config : Config} {c : Component} {table u : SummaryTable}
  {a b : String}

/-- The tables against which a function of a component is analyzed, when the component is
analyzed against a table: this one or, in the course of the passes, those that hold what the
passes have learned so far. -/
inductive Consults (p : Program) (config : Config) (c : Component) (table : SummaryTable)
    (name : String) : SummaryTable → Prop
  | once (hrec : c.isRecursive = false) : Consults p config c table name table
  | inPass {t : SummaryTable} {before after : List String} {pass : Pass}
      (hrec : c.isRecursive = true)
      (hpasses : Relation.ReflTransGen (Follows p config c) (c.startTable table) t)
      (hsplit : c.functions = before ++ name :: after)
      (hbefore : before.foldlM (passStep p config c) ⟨t, false, []⟩ = .ok pass) :
      Consults p config c table name pass.table

/-- The passes hold families that they have learned. -/
theorem learned_of_follows (hknown : ∀ name ∈ c.functions, (p.function? name).isSome)
    {t : SummaryTable} (h : Relation.ReflTransGen (Follows p config c) (c.startTable table) t) :
    ∃ family, Learned p config c table family ∧ t = c.tableWith table family := by
  induction h with
  | refl => exact ⟨_, .start, rfl⟩
  | tail _ hstep ih =>
      obtain ⟨family, hfamily, htable⟩ := ih
      obtain ⟨done, hpass, -, rfl⟩ := hstep
      exact (foldlM_passStep hknown c.functions (fun _ h => h) hfamily htable hpass).1

/-- What a function consults is the table of the lower levels, or that with a learned family. -/
theorem Consults.learned (hc : c ∈ (CallGraph.ofProgram p).components)
    (h : Consults p config c table a u) :
    u = table ∨ ∃ family, Learned p config c table family ∧ u = c.tableWith table family := by
  have hknown := known_of_mem_components hc
  cases h with
  | once hrec => exact .inl rfl
  | inPass hrec hpasses hsplit hbefore =>
      obtain ⟨family, hfamily, htable⟩ := learned_of_follows hknown hpasses
      exact .inr (foldlM_passStep hknown _ (fun name hname => hsplit ▸ List.mem_append_left _ hname)
        hfamily htable hbefore).1

/-- What a function consults agrees with the table of the lower levels elsewhere. -/
theorem Consults.get?_eq (hc : c ∈ (CallGraph.ofProgram p).components)
    (h : Consults p config c table a u) (hb : b ∉ c.functions) : u.get? b = table.get? b := by
  rcases h.learned hc with rfl | ⟨family, -, rfl⟩
  · rfl
  · rw [get?_tableWith, if_neg hb]

/-- In a pass that changes nothing, every function consults the table that the pass begins with. -/
theorem consults_of_unchanged (hc : c ∈ (CallGraph.ofProgram p).components)
    (hrec : c.isRecursive = true) {t : SummaryTable} {results : List (String × FunctionResult)}
    (hpasses : Relation.ReflTransGen (Follows p config c) (c.startTable table) t)
    (hpass : pass p config c t = .ok ⟨t, false, results⟩) (ha : a ∈ c.functions) :
    Consults p config c table a t := by
  have hknown := known_of_mem_components hc
  obtain ⟨before, after, hsplit⟩ := List.append_of_mem ha
  rw [pass, hsplit, List.foldlM_append] at hpass
  obtain ⟨mid, hbefore, hafter⟩ := bind_eq_ok_iff.mp hpass
  obtain ⟨family, hfamily, htable⟩ := learned_of_follows hknown hpasses
  obtain ⟨⟨family', hfamily', hmid⟩, hsame⟩ := foldlM_passStep hknown before
    (fun name hname => hsplit ▸ List.mem_append_left _ hname) hfamily htable hbefore
  -- the rest of the pass reports no change, so the functions before had none to report
  obtain ⟨-, hunchanged⟩ := foldlM_passStep hknown (a :: after)
    (fun name hname => hsplit ▸ List.mem_append_right _ hname) hfamily' hmid hafter
  have hkept : mid.table = t := (hsame (hunchanged rfl).1).2.1
  exact hkept ▸ .inPass hrec hpasses hsplit hbefore

/-- Each result of a component is that of a run against a table that the function consults. -/
theorem exists_consulted (hc : c ∈ (CallGraph.ofProgram p).components) {r : FunctionResult}
    (h : (a, .ok r) ∈ analyze p config table c) :
    ∃ u, Consults p config c table a u ∧
      analyzeFunction p config u (if c.isRecursive then c.functions else []) a = some (.ok r) := by
  rw [analyze] at h
  split at h
  · next hrec =>
    split at h
    · next results hok =>
      obtain ⟨last, family, hpasses, -, htable, hpass, hkeys, hruns⟩ :=
        passes_cases (known_of_mem_components hc) .start rfl hok
      obtain ⟨⟨name, result⟩, hmem, heq⟩ := List.mem_map.mp h
      obtain ⟨rfl, hresult⟩ := Prod.mk.inj heq
      obtain rfl := Except.ok.inj hresult
      have hname : name ∈ c.functions := hkeys ▸ List.mem_map_of_mem hmem
      refine ⟨last, consults_of_unchanged hc hrec hpasses hpass hname, ?_⟩
      rw [if_pos hrec, htable]
      exact (hruns _ hmem).1
    · obtain ⟨_, -, heq⟩ := List.mem_map.mp h
      exact absurd (Prod.mk.inj heq).2 (by simp only [reduceCtorEq, not_false_eq_true])
  · next hrec =>
    obtain ⟨_, -, hrun⟩ := List.mem_filterMap.mp h
    obtain ⟨outcome, houtcome, heq⟩ := Option.map_eq_some_iff.mp hrun
    obtain ⟨rfl, rfl⟩ := Prod.mk.inj heq
    exact ⟨table, .once (Bool.eq_false_iff.mpr hrec), by rw [if_neg hrec]; exact houtcome⟩

end Component

namespace Progress

open CallGraph

variable {p : Program} {config : Config} {b : String} {i : Nat}

/-- How far the analysis has come when it begins with a level. -/
def before (p : Program) (config : Config) (i : Nat) : Progress :=
  ((ofProgram p).levels.take i).foldl (level p config) ⟨.empty, .empty⟩

/-- What the lower levels hold has the outcomes of the end. -/
theorem before_outcomes (config : Config)
    (hb : b ∈ functionsOf ((ofProgram p).levels.take i)) :
    (before p config i).Synced ∧
      (before p config i).outcomes.get? b = (p.summarize config).get? b := by
  have hsplit := List.take_append_drop i (ofProgram p).levels
  have hlayered := layered_levels p
  have hnodup := nodup_functionsOf_levels p
  rw [← hsplit] at hlayered hnodup
  obtain ⟨hlower, hupper⟩ := hlayered.split
  rw [functionsOf_append] at hnodup
  have hmem : ∀ c ∈ (ofProgram p).levels.flatten, c ∈ (ofProgram p).components :=
    fun c hc => (flatten_levels p).mem_iff.mp hc
  rw [← hsplit, List.flatten_append] at hmem
  obtain ⟨hsynced, -, -⟩ := foldl_level config hlower
    (fun c hc => hmem c (List.mem_append_left _ hc))
    (by simpa using (List.nodup_append.mp hnodup).1) (g := ⟨.empty, .empty⟩) (fun _ => rfl)
  obtain ⟨-, hframe, -⟩ := foldl_level config hupper
    (fun c hc => hmem c (List.mem_append_right _ hc)) (by simpa using hnodup) hsynced
  refine ⟨hsynced, ?_⟩
  have hkept := hframe b fun h => (List.nodup_append.mp hnodup).2.2 b hb b h rfl
  rw [← List.foldl_append, hsplit] at hkept
  exact hkept.symm

end Progress

namespace Program

open CallGraph

variable {p : Program} {config : Config} {a b : String} {c : Component} {i : Nat}

theorem mem_flatten_levels : c ∈ (ofProgram p).levels.flatten ↔ c ∈ (ofProgram p).components :=
  (flatten_levels p).mem_iff

theorem functionsOf_levels_perm (p : Program) :
    (functionsOf (ofProgram p).levels).Perm p.names := by
  refine (List.perm_ext_iff_of_nodup (nodup_functionsOf_levels p) p.distinct).mpr fun a => ?_
  rw [functionsOf, List.mem_flatMap]
  constructor
  · intro h
    obtain ⟨c, hc, ha⟩ := h
    exact mem_names_of_mem_component (mem_flatten_levels.mp hc) ha
  · intro ha
    exact ⟨_, mem_flatten_levels.mpr (componentOf_mem_components ha), mem_componentOf_self ha⟩

theorem shares_component_iff (ha : a ∈ p.names) :
    (∃ c ∈ (ofProgram p).levels.flatten, a ∈ c.functions ∧ b ∈ c.functions) ↔
      p.CanCall a b ∧ p.CanCall b a := by
  constructor
  · intro h
    obtain ⟨c, hc, hac, hbc⟩ := h
    exact (mem_component_iff (mem_flatten_levels.mp hc) hac).mp hbc
  · intro h
    exact ⟨_, mem_flatten_levels.mpr (componentOf_mem_components ha), mem_componentOf_self ha,
      (mem_componentOf_iff ha).mpr h⟩

/-- Going through the components with callees first finds the level of each. -/
theorem mem_heightsAlong_iff {order : List Component}
    (hall : order.Perm (ofProgram p).levels.flatten)
    (horder : order.Pairwise fun c d => ¬ Above p c d) :
    (c, i) ∈ (ofProgram p).heightsAlong order ↔ OnLevel p c i := by
  obtain ⟨hkeys, hlevels⟩ := heightsAlong_eq (hall.trans (flatten_levels p)) horder
  constructor
  · exact fun h => hlevels (c, i) h
  · intro h
    have hc : c ∈ order := hall.mem_iff.mpr (mem_flatten_levels.mpr h.mem_components)
    rw [← hkeys] at hc
    obtain ⟨⟨d, j⟩, he, rfl⟩ := List.mem_map.mp hc
    obtain rfl : j = i := (hlevels (d, j) he).unique h
    exact he

/-- What a function is analyzed against has the final entry of whatever it calls outside of its
component. -/
theorem consults_final (hc : OnLevel p c i) (ha : a ∈ c.functions) {table : SummaryTable}
    (hconsults : c.Consults p config (Progress.before p config i).table a table)
    (hcall : p.Calls a b) (hout : b ∉ c.functions) : ∃ outcome,
      (p.summarize config).get? b = some outcome ∧ table.get? b = some (.ofOutcome outcome) := by
  obtain ⟨hsynced, hfinal⟩ := Progress.before_outcomes config (hc.mem_take ha hcall hout)
  have hsome := outcome_isSome config hcall.right_mem
  obtain ⟨outcome, houtcome⟩ := Option.isSome_iff_exists.mp hsome
  refine ⟨outcome, houtcome, ?_⟩
  rw [hconsults.get?_eq hc.mem_components hout, hsynced b, hfinal, houtcome, Option.map_some]

theorem keys_summarize_perm (p : Program) (config : Config) :
    (p.summarize config).keys.Perm p.names := by
  refine (List.perm_ext_iff_of_nodup (p.summarize config).nodup p.distinct).mpr fun a => ?_
  refine OrderedMap.mem_keys_iff_exists.trans ⟨fun h => ?_, fun ha => ?_⟩
  · obtain ⟨outcome, houtcome⟩ := h
    by_contra hno
    rw [(progress_settled p config).2.1 a hno] at houtcome
    exact Option.some_ne_none _ houtcome.symm
  · exact Option.isSome_iff_exists.mp (outcome_isSome config ha)

/-- Callees are finished before their callers. The levels hold every function once; two functions
share a component if they can call each other; a component is recursive if a function of it can
call itself; and its level is the length of the longest chain of components below it, which is
what going through the components with callees first finds. So whatever table a function is
analyzed against has the final entry of each function that it calls outside of its component, and
every function has exactly one outcome. -/
theorem callees_before_callers (p : Program) (config : Config) :
    (functionsOf (ofProgram p).levels).Perm p.names ∧
    (∀ a ∈ p.names, ∀ b ∈ p.names,
      (∃ c ∈ (ofProgram p).levels.flatten, a ∈ c.functions ∧ b ∈ c.functions) ↔
        p.CanCall a b ∧ p.CanCall b a) ∧
    (∀ c ∈ (ofProgram p).levels.flatten,
      c.isRecursive = true ↔ ∃ a ∈ c.functions, Relation.TransGen p.Calls a a) ∧
    (∀ c i, OnLevel p c i →
      IsGreatest {n | ∃ chain, Descends p c chain ∧ chain.length = n} i) ∧
    (∀ order : List Component, order.Perm (ofProgram p).levels.flatten →
      order.Pairwise (fun c d => ¬ Above p c d) →
      ∀ c i, (c, i) ∈ (ofProgram p).heightsAlong order ↔ OnLevel p c i) ∧
    (∀ c i, OnLevel p c i → ∀ a ∈ c.functions, ∀ table,
      c.Consults p config (Progress.before p config i).table a table →
      ∀ b, p.Calls a b → b ∉ c.functions → ∃ outcome,
        (p.summarize config).get? b = some outcome ∧ table.get? b = some (.ofOutcome outcome)) ∧
    (p.summarize config).keys.Perm p.names := by
  exact ⟨functionsOf_levels_perm p, fun a ha b _ => shares_component_iff ha,
    fun c hc => isRecursive_iff (mem_flatten_levels.mp hc), fun c i hc => hc.isGreatest,
    fun order hall horder c i => mem_heightsAlong_iff hall horder,
    fun c i hc a ha table hconsults b hcall hout => consults_final hc ha hconsults hcall hout,
    keys_summarize_perm p config⟩

end Program

open CallGraph in
theorem callees_before_callers_switchboard :
    OnLevel switchboard ⟨["top"], false⟩ 2 ∧
    IsGreatest {n | ∃ chain, Descends switchboard ⟨["top"], false⟩ chain ∧ chain.length = n} 2 ∧
    (⟨["top"], false⟩, 2) ∈
      (ofProgram switchboard).heightsAlong (ofProgram switchboard).levels.flatten ∧
    switchboard.Calls "top" "ping" ∧
    ∃ outcome, (switchboard.summarize hurried).get? "ping" = some outcome ∧
      (Progress.before switchboard hurried 2).table.get? "ping" = some (.ofOutcome outcome) := by
  have htop : OnLevel switchboard ⟨["top"], false⟩ 2 := by
    have hlevel : (ofProgram switchboard).levels[2]? = some [⟨["top"], false⟩] := by decide_cbv
    exact ⟨_, hlevel, List.mem_singleton.mpr rfl⟩
  have hcalls : switchboard.Calls "top" "ping" :=
    ⟨_, rfl, by decide, by decide⟩
  obtain ⟨-, -, -, hheight, horder, htable, -⟩ :=
    Program.callees_before_callers switchboard hurried
  exact ⟨htop, hheight _ _ htop,
    (horder _ (.refl _) (pairwise_flatten_levels switchboard) _ _).mpr htop, hcalls,
    htable _ _ htop "top" (by decide) _ (.once rfl) "ping" hcalls (by decide)⟩

end TaintAnalysis
