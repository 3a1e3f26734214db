import Mathlib.Data.List.Nodup
import TaintAnalysis.Proofs.Source.Lowering
import TaintAnalysis.Proofs.Source.Parsing

/-!
# Reading what was written

The syntax trees of a printable program resolve to the program. A variable is found
under its number, because no two variables have one name. The labels are entered in
the order of the blocks, which are numbered without gaps, so the number that a new
block receives is the one in its label.
-/

namespace TaintAnalysis

open Source

section

variable {ε α β : Type}

theorem ok_bind (a : α) (g : α → Except ε β) : (Except.ok a >>= g) = g a :=
  rfl

theorem mapM_map_eq_ok {g : β → Except ε α} {tree : α → β} {l : List α}
    (h : ∀ x ∈ l, g (tree x) = .ok x) : (l.map tree).mapM g = .ok l := by
  induction l with
  | nil => rfl
  | cons x l ih =>
      obtain ⟨hx, hl⟩ := List.forall_mem_cons.mp h
      rw [List.map_cons, List.mapM_cons, hx, ih hl]
      rfl

end

/-! ## Types, expressions and places -/

theorem upTo_toString {n limit : Nat} (h : n ≤ limit) (line : Nat) :
    Tree.Digits.upTo limit ⟨toString n, line⟩ = .ok n := by
  simp [Tree.Digits.upTo, h]

theorem Ty.Printable.resolve (line : Nat) : ∀ {t : Ty}, t.Printable → (t.tree line).resolve = .ok t
  | .int bits, _ => rfl
  | .pointer target, h => by
      have htarget := Ty.Printable.resolve line (t := target) h
      rw [tree, Tree.Ty.resolve, htarget]
      rfl
  | .array element none, h => by
      have helement := Ty.Printable.resolve line (t := element) h.1
      rw [tree, Option.map_none, Tree.Ty.resolve, helement]
      rfl
  | .array element (some length), h => by
      have helement := Ty.Printable.resolve line (t := element) h.1
      rw [tree, Option.map_some, Tree.Ty.resolve, helement, upTo_toString (h.2 length rfl)]
      rfl
  | .struct name, _ => rfl
  | .void, _ => rfl

/-- The scope knows the first `count` variables and the blocks by their numbers. -/
structure Source.Scope.Numbers (s : Scope) (count : Nat) (targets : List BlockId) : Prop where
  vars : ∀ v < count, s.function.varNamed? (VarId.text v) = some v
  labels : ∀ b ∈ targets, s.labels.get? (BlockId.text b) = some b

namespace Source.Scope.Numbers

variable {s : Scope} {count : Nat} {targets : List BlockId}

theorem var (hs : s.Numbers count targets) {v : VarId} (hv : v < count) (line : Nat) :
    s.var ⟨VarId.text v, line⟩ = .ok v := by
  rw [Scope.var, hs.vars v hv]

theorem block (hs : s.Numbers count targets) {b : BlockId} (hb : b ∈ targets) (line : Nat) :
    s.block ⟨BlockId.text b, line⟩ = .ok b := by
  rw [Scope.block, hs.labels b hb]

theorem const_ofNat {value : Int64} (h : 0 ≤ value.toInt) :
    value.toInt.toNat ≤ maxConstant ∧ Int64.ofNat value.toInt.toNat = value := by
  constructor
  · have hlt := Int64.toInt_lt value
    rw [maxConstant, UInt64.size]
    omega
  · rw [← Int64.ofInt_eq_ofNat, Int.toNat_of_nonneg h, Int64.ofInt_toInt]

mutual

theorem expr (hs : s.Numbers count targets) (line : Nat) : ∀ {e : TaintAnalysis.Expr},
    e.Printable count → s.expr (e.tree line) = .ok e
  | .var v, h => by
      rw [Expr.tree, Scope.expr, hs.var h]
      rfl
  | .const value, h => by
      obtain ⟨hle, hvalue⟩ := const_ofNat h
      rw [Expr.tree, Scope.expr, upTo_toString hle]
      exact congrArg (fun c => Except.ok (Expr.const c)) hvalue
  | .unary op e, h => by
      have he := expr hs line (e := e) h
      rw [Expr.tree, Scope.expr, he]
      rfl
  | .binary op l r, h => by
      have hl := expr hs line (e := l) h.1
      have hr := expr hs line (e := r) h.2
      rw [Expr.tree, Scope.expr, Scope.expr, hl, hr]
      rfl
  | .addrOf p, h => by
      have hp := place hs line (p := p) h
      rw [Expr.tree, Scope.expr, hp]
      rfl

theorem place (hs : s.Numbers count targets) (line : Nat) : ∀ {p : TaintAnalysis.Place},
    p.Printable count → s.place (p.tree line) = .ok p
  | .var v, h => by
      rw [Place.tree, Scope.place, hs.var h]
      rfl
  | .deref p, h => by
      have hp := place hs line (p := p) h
      rw [Place.tree, Scope.place, hp]
      rfl
  | .index p e, h => by
      have hp := place hs line (p := p) h.1
      have he := expr hs line (e := e) h.2
      rw [Place.tree, Scope.place, hp, he]
      rfl
  | .field p name, h => by
      have hp := place hs line (p := p) h.1
      rw [Place.tree, Scope.place, hp]
      rfl

end

/-! ## Blocks -/

theorem instruction (hs : s.Numbers count targets) (line : Nat) {i : TaintAnalysis.Instruction}
    (hi : i.Printable count) : s.instruction (i.tree line) = .ok i := by
  cases i with
  | assign dst e =>
      rw [Instruction.tree, Scope.instruction, hs.var hi.1, hs.expr line hi.2]
      rfl
  | load dst p =>
      rw [Instruction.tree, Scope.instruction, hs.var hi.1, hs.place line hi.2]
      rfl
  | store p e =>
      rw [Instruction.tree, Scope.instruction, hs.place line hi.1, hs.expr line hi.2]
      rfl
  | cast dst e ty =>
      rw [Instruction.tree, Scope.instruction, hs.var hi.1, hi.2.2.resolve line,
        hs.expr line hi.2.1]
      rfl
  | call dst callee args =>
      cases callee with
      | indirect target => exact hi.elim
      | direct name =>
          have hargs := mapM_map_eq_ok fun e he => hs.expr line (hi.2.2 e he)
          rw [Instruction.tree, Scope.instruction, hargs]
          cases dst with
          | none => rfl
          | some v =>
              rw [Option.map_some, Option.mapM_some, hs.var (hi.1 v rfl)]
              rfl
  | opaqueCode touched reason => exact hi.elim

theorem terminator (hs : s.Numbers count targets) (line : Nat) {t : TaintAnalysis.Terminator}
    (ht : t.Printable count targets) : s.terminator (t.tree line) = .ok t := by
  rcases t with target | ⟨condition, thenBlock, elseBlock⟩ | (_ | value) | _
  case jump =>
    rw [Terminator.tree, Scope.terminator, hs.block ht]
    rfl
  case branch =>
    rw [Terminator.tree, Scope.terminator, hs.expr line ht.1, hs.block ht.2.1, hs.block ht.2.2]
    rfl
  case ret.none => rfl
  case ret.some =>
    rw [Terminator.tree, Option.map_some, Scope.terminator, hs.expr line (ht value rfl)]
    rfl
  case missing => exact ht.elim

theorem basicBlock (hs : s.Numbers count targets) (line : Nat) {b : TaintAnalysis.Block}
    (hb : b.Printable count targets) (label : BlockId) :
    s.basicBlock (b.tree line label) = .ok b := by
  have hinstructions := mapM_map_eq_ok fun i hi => hs.instruction line (hb.1 i hi)
  rw [Block.tree, Scope.basicBlock, hinstructions, hs.terminator line hb.2]
  rfl

end Source.Scope.Numbers

/-! ## Declarations -/

theorem foldlM_declare (line : Nat) {kind : VarKind} {xs : List Variable} {f : Function}
    (hkind : ∀ x ∈ xs, x.kind = kind) (hty : ∀ x ∈ xs, x.ty.Printable)
    (hnames : ((f.vars ++ xs).map (·.name)).Nodup) :
    (xs.map (Variable.tree line)).foldlM (declare kind) f =
      .ok { f with vars := f.vars ++ xs } := by
  induction xs generalizing f with
  | nil => simp [pure, Except.pure]
  | cons x xs ih =>
      obtain ⟨hx, hkind⟩ := List.forall_mem_cons.mp hkind
      obtain ⟨hx', hty⟩ := List.forall_mem_cons.mp hty
      have hnew : f.varNamed? x.name = none := by
        rw [Function.varNamed?, List.findIdx?_eq_none_iff]
        intro y hy
        refine decide_eq_false fun heq => ?_
        rw [List.map_append, List.map_cons, List.nodup_append] at hnames
        exact hnames.2.2 y.name (List.mem_map_of_mem hy) x.name List.mem_cons_self heq
      have hdeclare : declare kind f (x.tree line) =
          .ok { f with vars := f.vars ++ [x] } := by
        rw [declare, Variable.tree, hx'.resolve line]
        show (if (f.varNamed? x.name).isSome then _ else _) = _
        rw [hnew]
        obtain ⟨name, ty, kind'⟩ := x
        obtain rfl : kind' = kind := hx
        rfl
      have hrest := ih (f := { f with vars := f.vars ++ [x] }) hkind hty (by simpa using hnames)
      rw [List.map_cons, List.foldlM_cons, hdeclare]
      refine hrest.trans ?_
      simp

theorem text_injective {v w : VarId} (h : VarId.text v = VarId.text w) : v = w :=
  toString_injective (String.append_right_inj "v" |>.mp h)

theorem blockText_injective {b c : BlockId} (h : BlockId.text b = BlockId.text c) : b = c :=
  UInt32.toNat_inj.mp (toString_injective (String.append_right_inj "bb" |>.mp h))

theorem Function.Printable.nodup_names {f : Function} (hf : f.Printable) :
    (f.vars.map (·.name)).Nodup := by
  rw [hf.names]
  exact List.Nodup.map (fun v w hvw => text_injective hvw) List.nodup_range

theorem Function.Printable.varNamed? {f : Function} (hf : f.Printable) {v : VarId}
    (hv : v < f.vars.length) : f.varNamed? (VarId.text v) = some v := by
  have hname (w : Nat) (hw : w < f.vars.length) : f.vars[w].name = VarId.text w := by
    have hget := List.getElem_of_eq hf.names (by simpa using hw : w < (f.vars.map (·.name)).length)
    simpa using hget
  rw [Function.varNamed?, List.findIdx?_eq_some_iff_getElem]
  refine ⟨hv, decide_eq_true (hname v hv), fun w hw heq => ?_⟩
  have hw' := (hname w (hw.trans hv)).symm.trans (of_decide_eq_true heq)
  exact hw.ne (text_injective hw')

/-! ## Labels -/

namespace Source.Scope

/-- The labels of the first blocks have been entered into the scope of the function. -/
structure Numbered (s : Scope) (f : TaintAnalysis.Function) (ks : List BlockId) : Prop where
  labels : s.labels.entries = ks.map fun b => (BlockId.text b, b)
  others : { s.function with blocks := f.blocks, nextBlock := f.nextBlock } = f
  next : s.function.nextBlock = UInt32.ofNat ks.length
  blocks : s.function.blocks.entries = ks.map fun b => (b, .unfinished)

variable {s : Scope} {f : TaintAnalysis.Function} {ks : List BlockId} {k : BlockId}

theorem Numbered.label (hs : s.Numbered f ks) (hks : ks ≠ []) (hnew : k ∉ ks)
    (hk : k = UInt32.ofNat ks.length) (line : Nat) (b : TaintAnalysis.Block) :
    ∃ s', s.label (b.tree line k) = .ok s' ∧ s'.Numbered f (ks ++ [k]) := by
  have hnext : s.function.nextBlock = k := by rw [hs.next, hk]
  have hlabel : BlockId.text k ∉ s.labels.keys := by
    rw [OrderedMap.keys, hs.labels, List.map_map, List.mem_map]
    intro hex
    obtain ⟨c, hc, heq⟩ := hex
    exact hnew (blockText_injective heq ▸ hc)
  have hblock : k ∉ s.function.blocks.keys := by
    rw [OrderedMap.keys, hs.blocks, List.map_map]
    simpa using hnew
  have hsize : ¬ s.labels.size = 0 := by
    rw [OrderedMap.size, hs.labels, List.length_map]
    simpa using hks
  refine ⟨⟨s.function.createBlock.2, s.labels.insert (BlockId.text k) k⟩, ?_, ?_, hs.others, ?_, ?_⟩
  · rw [OrderedMap.mem_keys_iff] at hlabel hblock
    rw [Scope.label, Block.tree, if_neg hlabel, if_neg hsize, hnext, if_neg hblock]
    rw [← hnext]
    rfl
  · rw [OrderedMap.entries_insert_of_not_mem hlabel, hs.labels, List.map_append]
    rfl
  · show s.function.nextBlock + 1 = _
    rw [hs.next, List.length_append, UInt32.ofNat_add]
    rfl
  · show (s.function.blocks.insert s.function.nextBlock .unfinished).entries = _
    rw [hnext, OrderedMap.entries_insert_of_not_mem hblock, hs.blocks, List.map_append]
    rfl

theorem Numbered.foldlM_label {es : List (BlockId × TaintAnalysis.Block)} (hs : s.Numbered f ks)
    (hks : ks ≠ []) (hnodup : (ks ++ es.map Prod.fst).Nodup)
    (hnumbers : ks ++ es.map Prod.fst = (List.range (ks.length + es.length)).map UInt32.ofNat)
    (line : Nat) :
    ∃ s', (es.map fun e => e.2.tree line e.1).foldlM Scope.label s = .ok s' ∧
      s'.Numbered f (ks ++ es.map Prod.fst) := by
  induction es generalizing s ks with
  | nil => exact ⟨s, rfl, by simpa using hs⟩
  | cons e es ih =>
      have hnew : e.1 ∉ ks := fun hmem =>
        (List.nodup_append.mp hnodup).2.2 e.1 hmem e.1 List.mem_cons_self rfl
      have hk : e.1 = UInt32.ofNat ks.length := by
        have hget := congrArg (fun l => l[ks.length]?) hnumbers
        simpa using hget
      obtain ⟨next, hnext, hnumbered⟩ := hs.label hks hnew hk line e.2
      have happend : ks ++ (e :: es).map Prod.fst = (ks ++ [e.1]) ++ es.map Prod.fst := by simp
      rw [happend] at hnodup hnumbers ⊢
      have hlength : ks.length + (e :: es).length = (ks ++ [e.1]).length + es.length := by
        simp only [List.length_append, List.length_cons, List.length_nil]
        omega
      obtain ⟨s', hs', hall⟩ := ih hnumbered (by simp) hnodup (hlength ▸ hnumbers)
      refine ⟨s', ?_, hall⟩
      rw [List.map_cons, List.foldlM_cons, hnext]
      exact hs'

/-- The function of a scope before labels are entered. -/
def declared (f : TaintAnalysis.Function) : TaintAnalysis.Function :=
  { TaintAnalysis.Function.new f.name with returns := f.returns, vars := f.vars }

theorem ofTree_tree (hf : f.Printable) (line : Nat) :
    Scope.ofTree (f.tree line) =
      (f.blocks.entries.map fun e => e.2.tree line e.1).foldlM Scope.label
        ⟨declared f, .empty⟩ := by
  have htypes {kind : VarKind} (x : Variable) (hx : x ∈ f.varsOf kind) : x.ty.Printable :=
    hf.types x (List.mem_filter.mp hx).1
  have hkinds {kind : VarKind} (x : Variable) (hx : x ∈ f.varsOf kind) : x.kind = kind :=
    of_decide_eq_true (List.mem_filter.mp hx).2
  have hnames := hf.nodup_names
  rw [hf.kinds] at hnames
  have hsub : ((f.varsOf .param).map (·.name)).Nodup := by
    rw [List.map_append] at hnames
    exact (List.nodup_append.mp hnames).1
  have hparams := foldlM_declare line (f := TaintAnalysis.Function.new f.name) hkinds htypes hsub
  have hlocals : ((f.varsOf .local).map (Variable.tree line)).foldlM (declare .local)
      { TaintAnalysis.Function.new f.name with returns := f.returns, vars := f.varsOf .param } =
        .ok (declared f) := by
    rw [foldlM_declare line hkinds htypes hnames, ← hf.kinds]
    rfl
  simp only [Scope.ofTree, TaintAnalysis.Function.tree, hparams, ok_bind, hf.returns.resolve line,
    pure_bind]
  exact (congrArg (fun x => x >>= fun g => List.foldlM Scope.label ⟨g, .empty⟩ _) hlocals).trans rfl

theorem exists_ofTree (hf : f.Printable) (line : Nat) :
    ∃ s, Scope.ofTree (f.tree line) = .ok s ∧ s.Numbered f f.blocks.keys := by
  rw [ofTree_tree hf]
  have hkeys := hf.keys
  have hnodup := f.blocks.nodup
  rw [OrderedMap.keys, OrderedMap.size] at *
  cases hentries : f.blocks.entries with
  | nil => exact absurd hentries hf.nonempty
  | cons e es =>
      rw [hentries] at hkeys hnodup
      have he : e.1 = 0 := by
        have hget := congrArg List.head? hkeys
        simpa [List.range_succ_eq_map] using hget
      have hfirst : Scope.label ⟨declared f, .empty⟩ (e.2.tree line e.1) =
          .ok ⟨declared f, OrderedMap.empty.insert (BlockId.text e.1) 0⟩ := rfl
      have hstart :
          Numbered ⟨declared f, OrderedMap.empty.insert (BlockId.text e.1) 0⟩ f [e.1] := by
        refine ⟨by rw [he]; rfl, ?_, rfl, by rw [he]; rfl⟩
        show ({ f with entry := 0 } : TaintAnalysis.Function) = f
        rw [← hf.entry]
      obtain ⟨s, hs, hall⟩ := hstart.foldlM_label (List.cons_ne_nil _ _) hnodup
        (by simpa [Nat.add_comm] using hkeys) line
      refine ⟨s, ?_, hall⟩
      rw [List.map_cons, List.foldlM_cons, hfirst]
      exact hs

end Source.Scope

/-! ## Functions and programs -/

theorem Function.Printable.resolve {f : Function} (hf : f.Printable) (line : Nat) :
    (f.tree line).resolve = .ok f := by
  obtain ⟨s, hs, hnumbered⟩ := Scope.exists_ofTree hf line
  have hvars : ({ s.function with blocks := f.blocks, nextBlock := f.nextBlock } : Function).vars =
      f.vars := by rw [hnumbered.others]
  have hnumbers : s.Numbers f.vars.length f.blocks.keys := by
    constructor
    · intro v hv
      have hv' := hf.varNamed? hv
      rwa [Function.varNamed?, ← hvars] at hv'
    · intro b hb
      rw [OrderedMap.get?_eq_some_iff, hnumbered.labels]
      exact List.mem_map_of_mem hb
  have hblocks : (f.tree line).blocks.mapM s.basicBlock = .ok f.blocks.values := by
    have hentries : ∀ es : List (BlockId × Block), (∀ e ∈ es, e.2.Printable f.vars.length
        f.blocks.keys) → (es.map fun e => e.2.tree line e.1).mapM s.basicBlock =
          .ok (es.map Prod.snd) := by
      intro es hes
      induction es with
      | nil => rfl
      | cons e es ih =>
          obtain ⟨he, hes⟩ := List.forall_mem_cons.mp hes
          rw [List.map_cons, List.mapM_cons, hnumbers.basicBlock line he, ih hes]
          rfl
    exact hentries f.blocks.entries fun e he => hf.blocks e.2 (List.mem_map_of_mem he)
  have hvalues : s.labels.values = f.blocks.keys := by
    rw [OrderedMap.values, hnumbered.labels, List.map_map]
    exact List.map_id _
  have hmodified : (f.blocks.keys.zip f.blocks.values).foldl
      (fun m e => m.modify e.1 fun _ => e.2) s.function.blocks = f.blocks := by
    have hkeys : s.function.blocks.entries.map Prod.fst = f.blocks.keys := by
      rw [hnumbered.blocks, List.map_map]
      exact List.map_id _
    have hlength : f.blocks.values.length = f.blocks.keys.length := by
      rw [OrderedMap.values, OrderedMap.keys, List.length_map, List.length_map]
    refine OrderedMap.eq_of_entries ?_
    rw [OrderedMap.entries_foldl_modify [] _ rfl hkeys hlength, List.nil_append, OrderedMap.keys,
      OrderedMap.values, List.zip_map']
    exact List.map_id _
  simp only [Tree.Function.resolve, hs, ok_bind, hblocks, hvalues, foldl_modifyBlock, hmodified]
  have hnext : s.function.nextBlock = f.nextBlock := by
    rw [hnumbered.next, hf.next, OrderedMap.keys, List.length_map]
    rfl
  have hothers := hnumbered.others
  rw [← hnext] at hothers
  exact congrArg Except.ok hothers

/-- Reading the text of a program gives the program again. -/
theorem Program.ofSource_source (p : Program) (hp : p.Printable) :
    Program.ofSource p.source = .ok p := by
  have hresolved : List.Forall₂ (fun t f => t.resolve = .ok f)
      (p.functions.map (Function.tree 1)) p.functions :=
    List.forall₂_map_left_iff.mpr (List.forall₂_same.mpr fun f hf => (hp f hf).resolve 1)
  obtain ⟨q, hq, hfunctions⟩ := foldlM_addFunction (p := .empty) hresolved p.distinct
  rw [Program.ofSource, hp.parse]
  refine hq.trans ?_
  obtain ⟨fs, hdistinct⟩ := q
  obtain rfl : fs = p.functions := hfunctions
  rfl

/-- One function with all kinds of instructions that can be written. -/
def walker : Program where
  functions := [
    { name := "walk"
      returns := .int 32
      vars := [⟨"v0", .pointer (.struct "node"), .param⟩, ⟨"v1", .array (.int 8) (some 4), .local⟩,
        ⟨"v2", .int 64, .local⟩]
      blocks := ⟨[
        (0, ⟨[.load 2 (.field (.deref (.var 0)) "next"),
            .assign 2 (.binary .and (.unary .neg (.var 2)) (.addrOf (.index (.var 1) (.const 3)))),
            .store (.index (.var 1) (.binary .shl (.var 2) (.const 1))) (.unary .not (.const 0))],
          .branch (.binary .logicalAnd (.var 2) (.binary .le (.var 2) (.const 9))) 0 1⟩),
        (1, ⟨[.call (some 2) (.direct "hash") [.var 2, .addrOf (.deref (.var 0))],
            .cast 2 (.var 2) (.int 32)],
          .ret (some (.var 2))⟩)], by decide⟩
      entry := 0
      nextBlock := 2 }]
  distinct := by decide

theorem source_walker : walker.source =
    "fn walk(v0: *struct node) -> i32 \x7b let v1: [i8; 4]; let v2: i64; " ++
      "bb0: v2 = load (*v0).next; v2 = (-v2 & &v1[3]); store v1[(v2 << 1)], !0; " ++
      "br (v2 && (v2 <= 9)), bb0, bb1; " ++
      "bb1: v2 = call hash(v2, &(*v0)); v2 = cast<i32> v2; ret v2; \x7d " := by
  decide +kernel

theorem walker_printable : walker.Printable := by
  intro f hf
  obtain rfl := List.mem_singleton.mp hf
  constructor <;> decide +kernel

theorem Program.ofSource_source_walker :
    walker.Printable ∧ Program.ofSource
      ("fn walk(v0: *struct node) -> i32 \x7b let v1: [i8; 4]; let v2: i64; " ++
        "bb0: v2 = load (*v0).next; v2 = (-v2 & &v1[3]); store v1[(v2 << 1)], !0; " ++
        "br (v2 && (v2 <= 9)), bb0, bb1; " ++
        "bb1: v2 = call hash(v2, &(*v0)); v2 = cast<i32> v2; ret v2; \x7d ") = .ok walker :=
  ⟨walker_printable, source_walker ▸ Program.ofSource_source walker walker_printable⟩

end TaintAnalysis
