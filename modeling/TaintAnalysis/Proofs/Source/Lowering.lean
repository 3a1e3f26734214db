import Mathlib.Data.List.Forall2
import TaintAnalysis.Proofs.Program.Validation
import TaintAnalysis.Source.Scope

/-!
# What a program has if it was read from a text

A text can only use the names that it declares, and every block of it ends with a
terminator. So the program that is read from a text has little left that the
checks before the analysis could find. Every variable is declared and every jump
goes to a block. The blocks of a function are those of its text, in their order:
the first label names the block that execution begins in, which exists beforehand,
and every other label a block that is created for it. Only a function whose text
has no block keeps an unfinished one.

What the checks can still find are calls with too few or too many arguments, blocks
that cannot be reached, and a configuration that does not fit the program.
-/

namespace TaintAnalysis

section

variable {ε α β : Type}

theorem bind_eq_ok {x : Except ε α} {g : α → Except ε β} {b : β} (h : x >>= g = .ok b) :
    ∃ a, x = .ok a ∧ g a = .ok b :=
  bind_eq_ok_iff.mp h

theorem bind_eq_error {x : Except ε α} {g : α → Except ε β} {e : ε} (h : x >>= g = .error e) :
    x = .error e ∨ ∃ a, x = .ok a ∧ g a = .error e := by
  cases x with
  | error e' => exact .inl (congrArg Except.error (Except.error.inj h))
  | ok a => exact .inr ⟨a, rfl, h⟩

theorem forall₂_of_mapM {g : α → Except ε β} {l : List α} {ys : List β} (h : l.mapM g = .ok ys) :
    List.Forall₂ (fun x y => g x = .ok y) l ys := by
  induction l generalizing ys with
  | nil =>
      obtain rfl : [] = ys := Except.ok.inj h
      exact .nil
  | cons x rest ih =>
      rw [List.mapM_cons] at h
      obtain ⟨y, hy, h⟩ := bind_eq_ok h
      obtain ⟨ys', hys, h⟩ := bind_eq_ok h
      obtain rfl : y :: ys' = ys := Except.ok.inj h
      exact .cons hy (ih hys)

theorem exists_of_mapM {g : α → Except ε β} {l : List α} {ys : List β} (h : l.mapM g = .ok ys)
    {y : β} (hy : y ∈ ys) : ∃ x ∈ l, g x = .ok y := by
  have hall := forall₂_of_mapM h
  clear h
  induction hall with
  | nil => exact absurd hy List.not_mem_nil
  | @cons x z l ys hx _ ih =>
      rcases List.mem_cons.mp hy with rfl | hy
      · exact ⟨x, List.mem_cons_self, hx⟩
      · obtain ⟨w, hw, hwy⟩ := ih hy
        exact ⟨w, List.mem_cons_of_mem x hw, hwy⟩

theorem exists_of_forM_eq_error {g : α → Except ε Unit} {l : List α} {e : ε}
    (h : l.forM g = .error e) : ∃ x ∈ l, g x = .error e := by
  induction l with
  | nil => exact nomatch h
  | cons x rest ih =>
      rcases bind_eq_error (g := fun _ => rest.forM g) h with hx | ⟨-, -, hrest⟩
      · exact ⟨x, List.mem_cons_self, hx⟩
      · obtain ⟨y, hy, hye⟩ := ih hrest
        exact ⟨y, List.mem_cons_of_mem x hy, hye⟩

/-- A loop that only checks something of each element fails where a check does. -/
theorem exists_of_forIn_eq_error {l : List α} {body : α → PUnit.{1} → Except ε (ForInStep PUnit)}
    {e : ε} (hbody : ∀ x r, body x PUnit.unit = .ok r → r = .yield PUnit.unit)
    (h : (do forIn l PUnit.unit body; pure ()) = .error e) :
    ∃ x ∈ l, body x PUnit.unit = .error e := by
  induction l with
  | nil => exact nomatch h
  | cons x rest ih =>
      rw [List.forIn_cons, bind_assoc] at h
      rcases bind_eq_error h with hx | ⟨r, hr, hrest⟩
      · exact ⟨x, List.mem_cons_self, hx⟩
      · obtain rfl := hbody x r hr
        obtain ⟨y, hy, hye⟩ := ih hrest
        exact ⟨y, List.mem_cons_of_mem x hy, hye⟩

end

namespace OrderedMap

variable {κ ν : Type} [DecidableEq κ]

theorem values_eq_map (m : OrderedMap κ ν) (default : ν) :
    m.values = m.keys.map fun k => (m.get? k).getD default := by
  rw [values, keys, List.map_map]
  refine List.map_congr_left fun e he => ?_
  have hget : m.get? e.1 = some e.2 := get?_eq_some_iff.mpr he
  simp [hget]

/-- Changing the values of all keys, one after the other. -/
theorem entries_foldl_modify (before after : List (κ × ν)) {ks : List κ} {vs : List ν}
    {m : OrderedMap κ ν} (hentries : m.entries = before ++ after)
    (hafter : after.map Prod.fst = ks) (hlen : vs.length = ks.length) :
    ((ks.zip vs).foldl (fun m e => m.modify e.1 fun _ => e.2) m).entries = before ++ ks.zip vs := by
  induction ks generalizing vs m before after with
  | nil =>
      obtain rfl := List.map_eq_nil_iff.mp hafter
      simpa using hentries
  | cons k rest ih =>
      obtain ⟨⟨k', old⟩, after', rfl, rfl, hafter'⟩ := List.map_eq_cons_iff.mp hafter
      cases vs with
      | nil => simp at hlen
      | cons v vs =>
          have hnodup := m.nodup
          rw [hentries, List.map_append, List.map_cons, List.nodup_append,
            List.nodup_cons] at hnodup
          obtain ⟨-, ⟨hk, -⟩, hapart⟩ := hnodup
          -- the other entries have other keys, so only the first one that is left is changed
          have hother (es : List (κ × ν)) (hes : ∀ e ∈ es, e.1 ≠ k') :
              es.map (fun e => (e.1, if e.1 = k' then v else e.2)) = es := by
            refine (List.map_congr_left fun e he => ?_).trans (List.map_id es)
            rw [if_neg (hes e he)]
            rfl
          have hbefore := hother before fun e he heq =>
            hapart e.1 (List.mem_map_of_mem he) k' List.mem_cons_self heq
          have hrest := hother after' fun e he heq =>
            hk (List.mem_map.mpr ⟨e, he, heq⟩)
          have hmodify : (m.modify k' fun _ => v).entries = (before ++ [(k', v)]) ++ after' := by
            show m.entries.map (fun e => (e.1, if e.1 = k' then v else e.2)) = _
            rw [hentries, List.map_append, List.map_cons, hbefore, hrest]
            simp
          have hrec := ih (before ++ [(k', v)]) after' hmodify hafter' (by simpa using hlen)
          rw [List.zip_cons_cons, List.foldl_cons, hrec]
          simp

end OrderedMap

/-! ## What is mentioned occurs -/

theorem Place.base_mem_occurrences : ∀ p : Place, p.base ∈ p.occurrences
  | .var _ => List.mem_singleton_self _
  | .deref p => by simpa [base, occurrences] using p.base_mem_occurrences
  | .field p _ => by simpa [base, occurrences] using p.base_mem_occurrences
  | .index p _ => List.mem_append_left _ p.base_mem_occurrences

mutual

theorem Expr.reads_subset : ∀ e : Expr, e.reads ⊆ e.occurrences
  | .var _ | .const _ => fun _ h => h
  | .unary _ e => e.reads_subset
  | .binary _ l r => List.append_subset.mpr ⟨fun _ h => List.mem_append_left _ (l.reads_subset h),
      fun _ h => List.mem_append_right _ (r.reads_subset h)⟩
  | .addrOf p => p.indexReads_subset

theorem Place.indexReads_subset : ∀ p : Place, p.indexReads ⊆ p.occurrences
  | .var _ => List.nil_subset _
  | .deref p | .field p _ => p.indexReads_subset
  | .index p e => List.append_subset.mpr
      ⟨fun _ h => List.mem_append_left _ (p.indexReads_subset h),
        fun _ h => List.mem_append_right _ (e.reads_subset h)⟩

end

theorem Expr.addressRoots_subset : ∀ e : Expr, e.addressRoots ⊆ e.occurrences
  | .var _ | .const _ => List.nil_subset _
  | .unary _ e => e.addressRoots_subset
  | .binary _ l r => List.append_subset.mpr
      ⟨fun _ h => List.mem_append_left _ (l.addressRoots_subset h),
        fun _ h => List.mem_append_right _ (r.addressRoots_subset h)⟩
  | .addrOf p => fun v h => by
      obtain rfl := List.mem_singleton.mp h
      exact p.base_mem_occurrences

theorem Expr.mentions_subset (e : Expr) : e.mentions ⊆ e.occurrences :=
  List.append_subset.mpr ⟨e.reads_subset, e.addressRoots_subset⟩

theorem Place.addressReads_subset (p : Place) : p.base :: p.addressReads ⊆ p.occurrences := by
  refine List.cons_subset.mpr ⟨p.base_mem_occurrences, List.append_subset.mpr
    ⟨?_, p.indexReads_subset⟩⟩
  split
  · exact List.cons_subset.mpr ⟨p.base_mem_occurrences, List.nil_subset _⟩
  · exact List.nil_subset _

/-! ## Names that are looked up -/

namespace Source

namespace Scope

variable {s : Scope}

theorem var_lt {n : Tree.Name} {v : VarId} (h : s.var n = .ok v) : v < s.function.vars.length := by
  rw [var] at h
  split at h
  · next w hw =>
    obtain rfl := Except.ok.inj h
    exact (List.findIdx?_eq_some_iff_getElem.mp hw).1
  · exact nomatch h

theorem get?_of_block {n : Tree.Name} {b : BlockId} (h : s.block n = .ok b) :
    s.labels.get? n.text = some b := by
  rw [block] at h
  split at h
  · next w hw => exact hw.trans (congrArg some (Except.ok.inj h))
  · cases h

mutual

/-- Every variable of an expression that is read is declared. -/
theorem expr_declared : ∀ {t : Tree.Expr} {e : Expr}, s.expr t = .ok e →
    ∀ v ∈ e.occurrences, v < s.function.vars.length
  | .int digits, e, h => by
      rw [expr] at h
      obtain ⟨n, -, h⟩ := bind_eq_ok h
      obtain rfl := Except.ok.inj h
      exact fun v hv => absurd hv List.not_mem_nil
  | .var n, e, h => by
      rw [expr] at h
      obtain ⟨w, hw, h⟩ := bind_eq_ok h
      obtain rfl := Except.ok.inj h
      intro v hv
      exact List.mem_singleton.mp hv ▸ var_lt hw
  | .addrOf p, e, h => by
      rw [expr] at h
      obtain ⟨p', hp, h⟩ := bind_eq_ok h
      obtain rfl := Except.ok.inj h
      exact fun v hv => place_declared hp v hv
  | .unary op t, e, h => by
      rw [expr] at h
      obtain ⟨e', he, h⟩ := bind_eq_ok h
      obtain rfl := Except.ok.inj h
      exact fun v hv => expr_declared he v hv
  | .binary op l r, e, h => by
      rw [expr] at h
      obtain ⟨l', hl, h⟩ := bind_eq_ok h
      obtain ⟨r', hr, h⟩ := bind_eq_ok h
      obtain rfl := Except.ok.inj h
      intro v hv
      rcases List.mem_append.mp hv with hv | hv
      · exact expr_declared hl v hv
      · exact expr_declared hr v hv
  | .group t, e, h => by
      rw [expr] at h
      exact expr_declared h

theorem place_declared : ∀ {t : Tree.Place} {p : Place}, s.place t = .ok p →
    ∀ v ∈ p.occurrences, v < s.function.vars.length
  | .var n, p, h => by
      rw [place] at h
      obtain ⟨w, hw, h⟩ := bind_eq_ok h
      obtain rfl := Except.ok.inj h
      intro v hv
      exact List.mem_singleton.mp hv ▸ var_lt hw
  | .deref t, p, h => by
      rw [place] at h
      obtain ⟨p', hp, h⟩ := bind_eq_ok h
      obtain rfl := Except.ok.inj h
      exact fun v hv => place_declared hp v hv
  | .index t e, p, h => by
      rw [place] at h
      obtain ⟨p', hp, h⟩ := bind_eq_ok h
      obtain ⟨e', he, h⟩ := bind_eq_ok h
      obtain rfl := Except.ok.inj h
      intro v hv
      rcases List.mem_append.mp hv with hv | hv
      · exact place_declared hp v hv
      · exact expr_declared he v hv
  | .field t name, p, h => by
      rw [place] at h
      obtain ⟨p', hp, h⟩ := bind_eq_ok h
      obtain rfl := Except.ok.inj h
      exact fun v hv => place_declared hp v hv

end

theorem expr_mentions {t : Tree.Expr} {e : Expr} (h : s.expr t = .ok e) :
    ∀ v ∈ e.mentions, v < s.function.vars.length :=
  fun v hv => expr_declared h v (e.mentions_subset hv)

theorem place_mentions {t : Tree.Place} {p : Place} (h : s.place t = .ok p) :
    ∀ v ∈ p.base :: p.addressReads, v < s.function.vars.length :=
  fun v hv => place_declared h v (p.addressReads_subset hv)

theorem callee_mentions {t : Tree.Callee} {callee : Callee} (h : s.callee t = .ok callee) :
    ∀ v ∈ (callee.target?.map Expr.mentions).getD [], v < s.function.vars.length := by
  cases t with
  | direct name =>
      obtain rfl := Except.ok.inj h
      exact fun v hv => absurd hv List.not_mem_nil
  | indirect target =>
      obtain ⟨e, he, h⟩ := bind_eq_ok h
      obtain rfl := Except.ok.inj h
      exact expr_mentions he

/-- The variable that the result of a call goes to, if there is one, is declared. -/
theorem result_lt {n : Option Tree.Name} {dst : Option VarId} (h : n.mapM s.var = .ok dst) :
    ∀ v ∈ dst.toList, v < s.function.vars.length := by
  cases n with
  | none =>
      obtain rfl := Except.ok.inj h
      exact fun v hv => absurd hv List.not_mem_nil
  | some n =>
      obtain ⟨u, hu, h⟩ := bind_eq_ok h
      obtain rfl := Except.ok.inj h
      exact fun v hv => List.mem_singleton.mp hv ▸ var_lt hu

theorem instruction_mentions {t : Tree.Statement} {i : Instruction} (h : s.instruction t = .ok i) :
    ∀ v ∈ i.mentions, v < s.function.vars.length := by
  cases t with
  | assign dst e =>
      obtain ⟨w, hw, h⟩ := bind_eq_ok h
      obtain ⟨e', he, h⟩ := bind_eq_ok h
      obtain rfl := Except.ok.inj h
      exact List.forall_mem_cons.mpr ⟨var_lt hw, expr_mentions he⟩
  | load dst p =>
      obtain ⟨w, hw, h⟩ := bind_eq_ok h
      obtain ⟨p', hp, h⟩ := bind_eq_ok h
      obtain rfl := Except.ok.inj h
      exact List.forall_mem_cons.mpr ⟨var_lt hw, place_mentions hp⟩
  | store p e =>
      obtain ⟨p', hp, h⟩ := bind_eq_ok h
      obtain ⟨e', he, h⟩ := bind_eq_ok h
      obtain rfl := Except.ok.inj h
      intro v hv
      rcases List.mem_append.mp hv with hv | hv
      · exact place_mentions hp v hv
      · exact expr_mentions he v hv
  | cast dst ty e =>
      obtain ⟨w, hw, h⟩ := bind_eq_ok h
      obtain ⟨ty', -, h⟩ := bind_eq_ok h
      obtain ⟨e', he, h⟩ := bind_eq_ok h
      obtain rfl := Except.ok.inj h
      exact List.forall_mem_cons.mpr ⟨var_lt hw, expr_mentions he⟩
  | call dst callee args =>
      obtain ⟨w, hw, h⟩ := bind_eq_ok h
      obtain ⟨callee', hcallee, h⟩ := bind_eq_ok h
      obtain ⟨args', hargs, h⟩ := bind_eq_ok h
      obtain rfl := Except.ok.inj h
      intro v hv
      rcases List.mem_append.mp hv with hv | hv
      · rcases List.mem_append.mp hv with hv | hv
        · exact result_lt hw v hv
        · exact callee_mentions hcallee v hv
      · obtain ⟨arg, harg, hv⟩ := List.mem_flatMap.mp hv
        obtain ⟨t, -, ht⟩ := exists_of_mapM hargs harg
        exact expr_mentions ht v hv
  | opaqueCode touched reason =>
      obtain ⟨vs, hvs, h⟩ := bind_eq_ok h
      obtain rfl := Except.ok.inj h
      intro v hv
      obtain ⟨t, -, ht⟩ := exists_of_mapM hvs hv
      exact var_lt ht

/-! ## Labels -/

/-- The labels of some blocks have been entered: the first one names the block that execution
begins in, and the blocks of the function are those that the labels name. -/
structure Entered (s : Scope) (done : List Tree.Block) : Prop where
  labels : s.labels.keys = done.map (·.label)
  unlabelled : done = [] → s.function.blocks.entries = [(s.function.entry, .unfinished)]
  blocks : done ≠ [] →
    s.function.blocks.entries = s.labels.values.map fun b => (b, Block.unfinished)
  entry : done ≠ [] → s.labels.values.head? = some s.function.entry

theorem entered_label {s' : Scope} {done : List Tree.Block} {b : Tree.Block} (h : s.Entered done)
    (hlabel : s.label b = .ok s') :
    s'.Entered (done ++ [b]) ∧ s'.function.name = s.function.name ∧
      s'.function.vars = s.function.vars := by
  rw [label] at hlabel
  split at hlabel
  · exact nomatch hlabel
  · next hnew =>
    have hkey : b.label ∉ s.labels.keys := fun hmem => hnew ((OrderedMap.mem_keys_iff _ _).mp hmem)
    have hkeys (id : BlockId) :
        (s.labels.insert b.label id).keys = (done ++ [b]).map (·.label) := by
      rw [OrderedMap.keys_insert, if_neg hkey, h.labels, List.map_append]
      rfl
    have hvalues (id : BlockId) :
        (s.labels.insert b.label id).values = s.labels.values ++ [id] :=
      OrderedMap.values_insert_of_not_mem hkey
    have hnonempty : done ++ [b] ≠ [] := by simp
    split at hlabel
    · next hsize =>
      -- the first label
      obtain rfl := Except.ok.inj hlabel
      have hnone : s.labels.entries = [] := List.length_eq_zero_iff.mp hsize
      have hdone : done = [] := by
        have hlen := congrArg List.length h.labels
        rw [OrderedMap.keys, hnone] at hlen
        exact List.length_eq_zero_iff.mp (by simpa using hlen.symm)
      have hempty : s.labels.values = [] := by rw [OrderedMap.values, hnone]; rfl
      refine ⟨⟨hkeys _, fun hnil => absurd hnil hnonempty, fun _ => ?_, fun _ => ?_⟩, rfl, rfl⟩
      · rw [hvalues, hempty]
        exact h.unlabelled hdone
      · rw [hvalues, hempty]
        rfl
    · next hsize =>
      split at hlabel
      · exact nomatch hlabel
      · next hfree =>
        obtain rfl := Except.ok.inj hlabel
        have hdone : done ≠ [] := by
          rintro rfl
          refine hsize ?_
          have hlen := congrArg List.length h.labels
          simpa [OrderedMap.keys, OrderedMap.size] using hlen
        have hfresh : s.function.nextBlock ∉ s.function.blocks.keys := fun hmem =>
          hfree ((OrderedMap.mem_keys_iff _ _).mp hmem)
        refine ⟨⟨hkeys _, fun hnil => absurd hnil hnonempty, fun _ => ?_, fun _ => ?_⟩, rfl, rfl⟩
        · show (s.function.blocks.insert s.function.nextBlock .unfinished).entries = _
          rw [OrderedMap.entries_insert_of_not_mem hfresh, h.blocks hdone]
          show _ = List.map _ (s.labels.insert b.label s.function.nextBlock).values
          rw [hvalues, List.map_append]
          rfl
        · show (s.labels.insert b.label s.function.nextBlock).values.head? = _
          rw [hvalues, List.head?_append, h.entry hdone]
          rfl

theorem entered_foldlM {s' : Scope} {done bs : List Tree.Block} (h : s.Entered done)
    (hlabels : bs.foldlM label s = .ok s') :
    s'.Entered (done ++ bs) ∧ s'.function.name = s.function.name ∧
      s'.function.vars = s.function.vars := by
  induction bs generalizing s done with
  | nil =>
      obtain rfl : s = s' := Except.ok.inj hlabels
      exact ⟨by simpa using h, rfl, rfl⟩
  | cons b rest ih =>
      rw [List.foldlM_cons] at hlabels
      obtain ⟨next, hnext, hlabels⟩ := bind_eq_ok hlabels
      obtain ⟨hentered, hname, hvars⟩ := entered_label h hnext
      obtain ⟨hentered', hname', hvars'⟩ := ih hentered hlabels
      exact ⟨by simpa using hentered', hname'.trans hname, hvars'.trans hvars⟩

end Scope

/-- The function has the name and the blocks of the other one. -/
structure SameBlocks (f g : Function) : Prop where
  name : g.name = f.name
  blocks : g.blocks = f.blocks
  entry : g.entry = f.entry

theorem SameBlocks.trans {f g h : Function} (hfg : SameBlocks f g) (hgh : SameBlocks g h) :
    SameBlocks f h :=
  ⟨hgh.name.trans hfg.name, hgh.blocks.trans hfg.blocks, hgh.entry.trans hfg.entry⟩

theorem sameBlocks_foldlM_declare {kind : VarKind} {ds : List Tree.Declaration} {f g : Function}
    (h : ds.foldlM (declare kind) f = .ok g) : SameBlocks f g := by
  induction ds generalizing f with
  | nil =>
      obtain rfl : f = g := Except.ok.inj h
      exact ⟨rfl, rfl, rfl⟩
  | cons d rest ih =>
      rw [List.foldlM_cons] at h
      obtain ⟨next, hnext, h⟩ := bind_eq_ok h
      have hstep : SameBlocks f next := by
        obtain ⟨ty, -, hnext⟩ := bind_eq_ok hnext
        split at hnext
        · exact nomatch hnext
        · obtain rfl := Except.ok.inj hnext
          exact ⟨rfl, rfl, rfl⟩
      exact hstep.trans (ih h)

theorem Scope.entered_ofTree {t : Tree.Function} {s : Scope} (h : Scope.ofTree t = .ok s) :
    s.Entered t.blocks ∧ s.function.name = t.name := by
  obtain ⟨f₁, hparams, h⟩ := bind_eq_ok h
  obtain ⟨f₂, hreturns, h⟩ : ∃ f₂, SameBlocks f₁ f₂ ∧
      (t.locals.foldlM (declare .local) f₂ >>= fun f => t.blocks.foldlM label ⟨f, .empty⟩) =
        .ok s := by
    cases hret : t.returns with
    | none =>
        rw [hret] at h
        exact ⟨f₁, ⟨rfl, rfl, rfl⟩, h⟩
    | some ty =>
        rw [hret] at h
        obtain ⟨ty', -, h⟩ := bind_eq_ok h
        exact ⟨{ f₁ with returns := ty' }, ⟨rfl, rfl, rfl⟩, h⟩
  obtain ⟨f₃, hlocals, h⟩ := bind_eq_ok h
  have hsame := ((sameBlocks_foldlM_declare hparams).trans hreturns).trans
    (sameBlocks_foldlM_declare hlocals)
  have hstart : Scope.Entered ⟨f₃, .empty⟩ [] := by
    refine ⟨rfl, fun _ => ?_, fun hne => absurd rfl hne, fun hne => absurd rfl hne⟩
    show f₃.blocks.entries = [(f₃.entry, .unfinished)]
    rw [hsame.blocks, hsame.entry]
    rfl
  obtain ⟨hentered, hname, -⟩ := entered_foldlM hstart h
  exact ⟨by simpa using hentered, hname.trans hsame.name⟩

/-! ## Blocks -/

/-- The labels that a written terminator goes to. -/
def Tree.Terminator.labels : Tree.Terminator → List String
  | .jump target => [target.text]
  | .branch _ thenBlock elseBlock => [thenBlock.text, elseBlock.text]
  | .ret _ => []

/-- A terminator ends a block as the written one says, if each label names the given block. -/
inductive Tree.Terminator.EndsLike (block : String → BlockId) :
    Tree.Terminator → TaintAnalysis.Terminator → Prop where
  | jump (target : Tree.Name) :
      EndsLike block (.jump target) (.jump (block target.text))
  | branch (written : Tree.Expr) (condition : TaintAnalysis.Expr)
      (thenBlock elseBlock : Tree.Name) :
      EndsLike block (.branch written thenBlock elseBlock)
        (.branch condition (block thenBlock.text) (block elseBlock.text))
  | ret (written : Option Tree.Expr) (value : Option TaintAnalysis.Expr) :
      EndsLike block (.ret written) (.ret value)

/-- The blocks of a function are those of its text. Each label names a block of its own, whose
terminator goes to the blocks that its labels name. A text without blocks leaves the block that
execution begins in unfinished. -/
structure Tree.Function.Describes (t : Tree.Function) (f : TaintAnalysis.Function) : Prop where
  name : f.name = t.name
  labels : (t.blocks.map (·.label)).Nodup
  unfinished : t.blocks = [] → f.blocks.entries = [(f.entry, .unfinished)]
  blocks : t.blocks ≠ [] → ∃ block : String → BlockId,
    (t.blocks.head?.map fun b => block b.label) = some f.entry ∧
      List.Forall₂ (fun b e => e.1 = block b.label ∧ b.terminator.EndsLike block e.2.terminator ∧
        ∀ label ∈ b.terminator.labels, label ∈ t.blocks.map (·.label)) t.blocks f.blocks.entries

namespace Scope

variable {s : Scope}

/-- The block that a label names. -/
def blockOf (s : Scope) (label : String) : BlockId :=
  (s.labels.get? label).getD s.function.entry

theorem blockOf_of_block {n : Tree.Name} {b : BlockId} (h : s.block n = .ok b) :
    s.blockOf n.text = b ∧ n.text ∈ s.labels.keys := by
  have hget := get?_of_block h
  exact ⟨by rw [blockOf, hget]; rfl, OrderedMap.mem_keys_iff_exists.mpr ⟨b, hget⟩⟩

theorem endsLike_of_terminator {t : Tree.Terminator} {e : TaintAnalysis.Terminator}
    (h : s.terminator t = .ok e) :
    t.EndsLike s.blockOf e ∧ ∀ label ∈ t.labels, label ∈ s.labels.keys := by
  cases t with
  | jump target =>
      obtain ⟨b, hb, h⟩ := bind_eq_ok h
      obtain rfl := Except.ok.inj h
      obtain ⟨rfl, hkey⟩ := blockOf_of_block hb
      exact ⟨.jump target, fun label hlabel => List.mem_singleton.mp hlabel ▸ hkey⟩
  | branch condition thenBlock elseBlock =>
      obtain ⟨c, -, h⟩ := bind_eq_ok h
      obtain ⟨b, hb, h⟩ := bind_eq_ok h
      obtain ⟨b', hb', h⟩ := bind_eq_ok h
      obtain rfl := Except.ok.inj h
      obtain ⟨rfl, hkey⟩ := blockOf_of_block hb
      obtain ⟨rfl, hkey'⟩ := blockOf_of_block hb'
      refine ⟨.branch condition c thenBlock elseBlock, fun label hlabel => ?_⟩
      rcases List.mem_cons.mp hlabel with rfl | hlabel
      · exact hkey
      · exact List.mem_singleton.mp hlabel ▸ hkey'
  | ret value =>
      cases value with
      | none =>
          obtain rfl := Except.ok.inj h
          exact ⟨.ret none none, fun label hlabel => absurd hlabel List.not_mem_nil⟩
      | some value =>
          obtain ⟨v, -, h⟩ := bind_eq_ok h
          obtain rfl := Except.ok.inj h
          exact ⟨.ret (some value) (some v), fun label hlabel => absurd hlabel List.not_mem_nil⟩

theorem terminator_mentions {t : Tree.Terminator} {e : TaintAnalysis.Terminator}
    (h : s.terminator t = .ok e) : ∀ v ∈ e.mentions, v < s.function.vars.length := by
  cases t with
  | jump target =>
      obtain ⟨b, -, h⟩ := bind_eq_ok h
      obtain rfl := Except.ok.inj h
      exact fun v hv => absurd hv List.not_mem_nil
  | branch condition thenBlock elseBlock =>
      obtain ⟨c, hc, h⟩ := bind_eq_ok h
      obtain ⟨b, -, h⟩ := bind_eq_ok h
      obtain ⟨b', -, h⟩ := bind_eq_ok h
      obtain rfl := Except.ok.inj h
      exact expr_mentions hc
  | ret value =>
      cases value with
      | none =>
          obtain rfl := Except.ok.inj h
          exact fun v hv => absurd hv List.not_mem_nil
      | some value =>
          obtain ⟨v, hv, h⟩ := bind_eq_ok h
          obtain rfl := Except.ok.inj h
          exact expr_mentions hv

theorem basicBlock_mentions {b : Tree.Block} {block : Block} (h : s.basicBlock b = .ok block) :
    ∀ v ∈ block.mentions, v < s.function.vars.length := by
  obtain ⟨is, his, h⟩ := bind_eq_ok h
  obtain ⟨e, he, h⟩ := bind_eq_ok h
  obtain rfl := Except.ok.inj h
  intro v hv
  rcases List.mem_append.mp hv with hv | hv
  · obtain ⟨i, hi, hv⟩ := List.mem_flatMap.mp hv
    obtain ⟨t, -, ht⟩ := exists_of_mapM his hi
    exact instruction_mentions ht v hv
  · exact terminator_mentions he v hv

end Scope

theorem foldl_modifyBlock (es : List (BlockId × Block)) (f : Function) :
    es.foldl (fun f (id, block) => f.modifyBlock id fun _ => block) f =
      { f with blocks := es.foldl (fun m e => m.modify e.1 fun _ => e.2) f.blocks } := by
  induction es generalizing f with
  | nil => rfl
  | cons e rest ih => exact ih _

theorem forall₂_zip_map {α β γ : Type} {R : α → β → Prop} (g : α → γ) {l : List α} {ys : List β}
    (h : List.Forall₂ R l ys) :
    List.Forall₂ (fun x e => e.1 = g x ∧ R x e.2) l ((l.map g).zip ys) := by
  induction h with
  | nil => exact .nil
  | cons hxy _ ih => exact .cons ⟨rfl, hxy⟩ ih

/-- A function whose variables and blocks are written out is described by its text, and its blocks
mention only variables that it declares. -/
theorem describes_of_resolve {t : Tree.Function} {f : TaintAnalysis.Function}
    (h : t.resolve = .ok f) :
    t.Describes f ∧ ∀ block ∈ f.blocks.values, ∀ v ∈ block.mentions, v < f.vars.length := by
  obtain ⟨s, hs, h⟩ := bind_eq_ok h
  obtain ⟨blocks, hblocks, h⟩ := bind_eq_ok h
  have hf := Except.ok.inj h
  rw [foldl_modifyBlock] at hf
  obtain ⟨hentered, hname⟩ := Scope.entered_ofTree hs
  have hall := forall₂_of_mapM hblocks
  have hvalues : s.labels.values = t.blocks.map fun b => s.blockOf b.label := by
    rw [OrderedMap.values_eq_map s.labels s.function.entry, hentered.labels, List.map_map]
    rfl
  have hnodup : (t.blocks.map (·.label)).Nodup := hentered.labels ▸ s.labels.nodup
  by_cases hnil : t.blocks = []
  · -- no block is written, so the function is as it was before
    have hnone : s.labels.values = [] := by rw [hvalues, hnil]; rfl
    rw [hnone] at hf
    obtain rfl : s.function = f := hf
    have hentries := hentered.unlabelled hnil
    refine ⟨⟨hname, hnodup, fun _ => hentries, fun hne => absurd hnil hne⟩, fun block hblock => ?_⟩
    rw [OrderedMap.values, hentries] at hblock
    obtain rfl := List.mem_singleton.mp hblock
    exact fun v hv => absurd hv List.not_mem_nil
  · have hentries : f.blocks.entries = s.labels.values.zip blocks := by
      rw [← hf]
      refine OrderedMap.entries_foldl_modify [] s.function.blocks.entries rfl ?_ ?_
      · rw [hentered.blocks hnil, List.map_map]
        exact List.map_id _
      · rw [hvalues, List.length_map, hall.length_eq]
    refine ⟨⟨hf ▸ hname, hnodup, fun h => absurd h hnil, fun _ => ⟨s.blockOf, ?_, ?_⟩⟩, ?_⟩
    · have hentry := hentered.entry hnil
      rw [hvalues, List.head?_map] at hentry
      rw [hentry, ← hf]
    · rw [hentries, hvalues]
      refine (forall₂_zip_map (fun b => s.blockOf b.label) hall).imp fun b e hbe => ?_
      obtain ⟨is, -, hblock⟩ := bind_eq_ok hbe.2
      obtain ⟨e', he', hblock⟩ := bind_eq_ok hblock
      obtain ⟨hends, hlabels⟩ := Scope.endsLike_of_terminator he'
      rw [hentered.labels] at hlabels
      rw [← Except.ok.inj hblock]
      exact ⟨hbe.1, hends, hlabels⟩
    · intro block hblock
      obtain ⟨e, he, rfl⟩ := List.mem_map.mp hblock
      rw [hentries] at he
      obtain ⟨b, -, hb⟩ := exists_of_mapM hblocks (List.of_mem_zip he).2
      rw [← hf]
      exact Scope.basicBlock_mentions hb

/-! ## Programs -/

theorem functions_addFunction {p q : Program} {t : Tree.Function} (h : addFunction p t = .ok q) :
    ∃ f, t.resolve = .ok f ∧ q.functions = p.functions ++ [f] := by
  obtain ⟨f, hf, h⟩ := bind_eq_ok h
  split at h
  · exact nomatch h
  · next hnew =>
    obtain rfl := Except.ok.inj h
    exact ⟨f, hf, Program.functions_add fun hmem => hnew (decide_eq_true hmem)⟩

theorem addFunction_of_resolve {p : Program} {t : Tree.Function} {f : TaintAnalysis.Function}
    (hf : t.resolve = .ok f) (hnew : f.name ∉ p.names) :
    ∃ q, addFunction p t = .ok q ∧ q.functions = p.functions ++ [f] := by
  have hcontains : ¬ p.contains f.name = true := fun h => hnew (of_decide_eq_true h)
  have hadd : addFunction p t = .ok (p.add f) := by
    rw [addFunction, hf]
    exact if_neg hcontains
  obtain ⟨g, hg, hfunctions⟩ := functions_addFunction hadd
  obtain rfl := Except.ok.inj (hf.symm.trans hg)
  exact ⟨p.add f, hadd, hfunctions⟩

/-- Functions whose names differ are added to a program one after the other. -/
theorem foldlM_addFunction {p : Program} {ts : List Tree.Function}
    {fs : List TaintAnalysis.Function} (hfs : List.Forall₂ (fun t f => t.resolve = .ok f) ts fs)
    (hnames : ((p.functions ++ fs).map (·.name)).Nodup) :
    ∃ q, ts.foldlM addFunction p = .ok q ∧ q.functions = p.functions ++ fs := by
  induction hfs generalizing p with
  | nil => exact ⟨p, rfl, (List.append_nil _).symm⟩
  | @cons t f ts fs hf _ ih =>
      have hnew : f.name ∉ p.names := fun hmem => by
        rw [List.map_append, List.map_cons, List.nodup_append] at hnames
        exact hnames.2.2 f.name hmem f.name List.mem_cons_self rfl
      obtain ⟨next, hnext, hfunctions⟩ := addFunction_of_resolve hf hnew
      obtain ⟨q, hq, hall⟩ := ih (by rw [hfunctions]; simpa using hnames)
      refine ⟨q, ?_, by rw [hall, hfunctions]; simp⟩
      rw [List.foldlM_cons, hnext]
      exact hq

theorem functions_foldlM {p q : Program} {ts : List Tree.Function}
    (h : ts.foldlM addFunction p = .ok q) :
    ∃ fs, q.functions = p.functions ++ fs ∧ List.Forall₂ (fun t f => t.resolve = .ok f) ts fs := by
  induction ts generalizing p with
  | nil =>
      obtain rfl : p = q := Except.ok.inj h
      exact ⟨[], (List.append_nil _).symm, .nil⟩
  | cons t rest ih =>
      rw [List.foldlM_cons] at h
      obtain ⟨next, hnext, h⟩ := bind_eq_ok h
      obtain ⟨f, hf, hfunctions⟩ := functions_addFunction hnext
      obtain ⟨fs, hfs, hrest⟩ := ih h
      refine ⟨f :: fs, ?_, .cons hf hrest⟩
      rw [hfs, hfunctions, List.append_assoc, List.singleton_append]

end Source

end TaintAnalysis
