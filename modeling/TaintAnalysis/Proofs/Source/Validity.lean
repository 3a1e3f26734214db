import TaintAnalysis.Proofs.Program.Validation
import TaintAnalysis.Proofs.Source.Lowering

/-!
# What the checks can find in a program that was read from a text

Of the faults that the checks before the analysis look for, a program that was
read from a text can have three: a function without blocks, a call with too few or
too many arguments, and a block that cannot be reached, where such blocks are not
dropped. The other two faults that can be reported are faults of the configuration,
which may name functions and parameters that the program does not have.
-/

namespace TaintAnalysis

open Source

/-! ## Blocks -/

namespace Source.Tree

variable {block : String → BlockId} {t : Terminator} {e : TaintAnalysis.Terminator}

theorem Terminator.EndsLike.ne_missing (h : t.EndsLike block e) : e ≠ .missing := by
  cases h <;> simp

theorem Terminator.EndsLike.exists_label (h : t.EndsLike block e) {b : BlockId}
    (hb : b ∈ e.successors) : ∃ label ∈ t.labels, block label = b := by
  cases h with
  | jump target =>
      exact ⟨target.text, List.mem_singleton_self _, (List.mem_singleton.mp hb).symm⟩
  | branch written condition thenBlock elseBlock =>
      have hb : b = block thenBlock.text ∨ b = block elseBlock.text := by
        rw [TaintAnalysis.Terminator.successors] at hb
        split at hb <;> simp at hb <;> tauto
      rcases hb with rfl | rfl
      · exact ⟨_, List.mem_cons_self, rfl⟩
      · exact ⟨_, List.mem_cons_of_mem _ (List.mem_singleton_self _), rfl⟩
  | ret written value => exact absurd hb List.not_mem_nil

namespace Function.Describes

variable {t : Tree.Function} {f : TaintAnalysis.Function}

theorem keys_eq {es : List (BlockId × TaintAnalysis.Block)} {bs : List Tree.Block}
    (h : List.Forall₂ (fun b e => e.1 = block b.label) bs es) :
    es.map Prod.fst = bs.map fun b => block b.label := by
  induction h with
  | nil => rfl
  | cons hbe _ ih => rw [List.map_cons, List.map_cons, hbe, ih]

theorem entry_mem_keys (h : t.Describes f) : f.entry ∈ f.blocks.keys := by
  by_cases hnil : t.blocks = []
  · rw [OrderedMap.keys, h.unfinished hnil]
    exact List.mem_singleton_self _
  · obtain ⟨block, hentry, hall⟩ := h.blocks hnil
    rw [OrderedMap.keys, keys_eq (hall.imp fun _ _ h => h.1)]
    obtain ⟨b, hb, heq⟩ := Option.map_eq_some_iff.mp hentry
    exact heq ▸ List.mem_map_of_mem (List.mem_of_head? hb)

/-- Where some block is written, every block is finished and goes on in blocks of the function. -/
theorem finished (h : t.Describes f) (hnil : t.blocks ≠ []) {e : BlockId × TaintAnalysis.Block}
    (he : e ∈ f.blocks.entries) :
    e.2.terminator ≠ .missing ∧ ∀ b ∈ e.2.successors, b ∈ f.blocks.keys := by
  obtain ⟨block, -, hall⟩ := h.blocks hnil
  obtain ⟨i, hi, rfl⟩ := List.getElem_of_mem he
  have hwritten := (List.forall₂_iff_get.mp hall).2 i (hall.length_eq ▸ hi) hi
  obtain ⟨-, hends, hlabels⟩ := hwritten
  refine ⟨hends.ne_missing, fun b hb => ?_⟩
  obtain ⟨label, hlabel, rfl⟩ := hends.exists_label hb
  obtain ⟨target, htarget, heq⟩ := List.mem_map.mp (hlabels label hlabel)
  rw [OrderedMap.keys, keys_eq (hall.imp fun _ _ h => h.1), ← heq]
  exact List.mem_map.mpr ⟨target, htarget, rfl⟩

end Function.Describes

end Source.Tree

namespace Function

variable {t : Tree.Function} {f : Function} {e : ProgramError}

theorem cases_of_checkBlock_error {b : BlockId} {block : Block}
    (h : f.checkBlock b block = .error e) :
    (block.terminator = .missing ∧ e = .missingTerminator f.name b) ∨
      ∃ s ∈ block.successors, s ∉ f.blocks.keys := by
  rw [checkBlock] at h
  split at h
  · next hmissing =>
    refine .inl ⟨?_, (Except.error.inj h).symm⟩
    simpa [Block.isTerminated] using hmissing
  · obtain ⟨s, hs, hbody⟩ := exists_of_forIn_eq_error (fun s r hr => by
      split at hr
      · cases hr
      · exact (Except.ok.inj hr).symm) h
    refine .inr ⟨s, hs, fun hmem => ?_⟩
    rw [if_neg (not_not_intro ((OrderedMap.mem_keys_iff _ _).mp hmem))] at hbody
    cases hbody

/-- The only fault that the blocks of a function that was read from a text can have. -/
theorem of_checkBlocks_error (ht : t.Describes f) (h : f.checkBlocks = .error e) :
    t.blocks = [] ∧ ∃ b, e = .missingTerminator f.name b := by
  have hentry := (OrderedMap.mem_keys_iff _ _).mp ht.entry_mem_keys
  rw [checkBlocks, if_neg (not_not_intro hentry)] at h
  obtain ⟨x, hx, hbody⟩ := exists_of_forIn_eq_error (fun x r hr => by
    obtain ⟨u, -, hr⟩ := bind_eq_ok hr
    exact (Except.ok.inj hr).symm) h
  have hblock : f.checkBlock x.1 x.2 = .error e := by
    rcases bind_eq_error hbody with hx | ⟨u, -, hpure⟩
    · exact hx
    · exact nomatch hpure
  by_cases hnil : t.blocks = []
  · refine ⟨hnil, ?_⟩
    rw [ht.unfinished hnil] at hx
    obtain rfl := List.mem_singleton.mp hx
    rcases cases_of_checkBlock_error hblock with ⟨-, rfl⟩ | ⟨s, hs, -⟩
    · exact ⟨_, rfl⟩
    · exact absurd hs List.not_mem_nil
  · obtain ⟨hdone, hnext⟩ := ht.finished hnil hx
    rcases cases_of_checkBlock_error hblock with ⟨hmissing, -⟩ | ⟨s, hs, hout⟩
    · exact absurd hmissing hdone
    · exact absurd (hnext s hs) hout

theorem of_checkFlow_error {config : Config} (ht : t.Describes f)
    (h : f.checkFlow config = .error e) :
    (t.blocks = [] ∧ ∃ b, e = .missingTerminator f.name b) ∨
      config.pruneUnreachable = false ∧ ∃ b, e = .unreachableBlock f.name b := by
  rcases bind_eq_error h with hblocks | ⟨u, -, h⟩
  · exact .inl (of_checkBlocks_error ht hblocks)
  · split at h
    · next hkeep =>
      split at h
      · exact nomatch h
      · exact .inr ⟨Bool.eq_false_iff.mpr hkeep, _, (Except.error.inj h).symm⟩
    · exact nomatch h

theorem checkVariables_ne_error
    (h : ∀ block ∈ f.blocks.values, ∀ v ∈ block.mentions, v < f.vars.length) :
    f.checkVariables ≠ .error e := by
  intro herror
  obtain ⟨block, hblock, herror⟩ := exists_of_forM_eq_error herror
  obtain ⟨v, hv, herror⟩ := exists_of_forM_eq_error herror
  rw [checkVariable, if_pos (h block hblock v hv)] at herror
  cases herror

theorem of_checkCalls_error {p : Program} (h : f.checkCalls p = .error e) :
    ∃ callee expected found, e = .arityMismatch f.name callee expected found ∧
      expected ≠ found := by
  obtain ⟨i, -, hi⟩ := exists_of_forM_eq_error h
  rw [checkCall.eq_def] at hi
  split at hi
  · split at hi
    · split at hi
      · exact nomatch hi
      · next hne => exact ⟨_, _, _, (Except.error.inj hi).symm, hne⟩
    · exact nomatch hi
  · exact nomatch hi

end Function

/-! ## Programs -/

namespace Program

variable {p : Program} {config : Config} {e : ProgramError}

/-- A fault that the configuration is to blame for. -/
def ConfigFault (p : Program) (config : Config) : ProgramError → Prop
  | .unknownFunction name => (config.sourcesOf? name).isSome ∧ name ∉ p.names
  | .unknownSource function name => ∃ names, config.sourcesOf? function = some names ∧ name ∈ names
  | _ => False

theorem configFault_of_checkSources {q : Program} (hnames : q.names = p.names)
    (h : q.checkSources config = .error e) : p.ConfigFault config e := by
  obtain ⟨⟨function, names⟩, hmem, herror⟩ := exists_of_forM_eq_error h
  have hentry : config.sourcesOf? function = some names :=
    OrderedMap.get?_eq_some_iff.mpr (List.mem_mergeSort.mp hmem)
  dsimp only at herror
  split at herror
  · next f hf =>
    obtain ⟨name, hname, herror⟩ := exists_of_forM_eq_error herror
    rw [Function.checkSource] at herror
    split at herror
    · exact nomatch herror
    · rw [← Except.error.inj herror]
      have hfunction : f.name = function := by simpa using List.find?_some hf
      exact ⟨names, hfunction ▸ hentry, hname⟩
  · next hnone =>
    rw [← Except.error.inj herror]
    refine ⟨Option.isSome_iff_exists.mpr ⟨names, hentry⟩, fun hmem => ?_⟩
    rw [← hnames] at hmem
    obtain ⟨f, hf, rfl⟩ := List.mem_map.mp hmem
    exact absurd (decide_eq_true rfl) (List.find?_eq_none.mp hnone f hf)

/-- The faults that a program can have that was read from a text with the given functions. -/
inductive TextFault (p : Program) (config : Config) (ts : List Tree.Function) :
    ProgramError → Prop where
  /-- The text of a function has no block. -/
  | missingTerminator (t : Tree.Function) (ht : t ∈ ts) (hnil : t.blocks = []) (b : BlockId) :
      TextFault p config ts (.missingTerminator t.name b)
  | unreachableBlock (hkeep : config.pruneUnreachable = false) (name : String) (b : BlockId) :
      TextFault p config ts (.unreachableBlock name b)
  | arityMismatch (name callee : String) (expected found : Nat) (hne : expected ≠ found) :
      TextFault p config ts (.arityMismatch name callee expected found)
  | config {e : ProgramError} (h : p.ConfigFault config e) : TextFault p config ts e

theorem mem_functions_checked {f : Function}
    (h : f ∈ (if config.pruneUnreachable then p.prune else p).functions) :
    ∃ g ∈ p.functions, f.vars = g.vars ∧ f.blocks.values ⊆ g.blocks.values := by
  split at h
  · obtain ⟨g, hg, rfl⟩ := List.mem_map.mp h
    refine ⟨g, hg, rfl, fun block hblock => ?_⟩
    obtain ⟨x, hx, rfl⟩ := List.mem_map.mp hblock
    exact List.mem_map_of_mem (List.mem_filter.mp hx).1
  · exact ⟨f, h, rfl, fun _ hblock => hblock⟩

theorem textFault_of_validate {ts : List Tree.Function}
    (hts : List.Forall₂ (fun t f => t.resolve = .ok f) ts p.functions)
    (h : p.validate config = .error e) : p.TextFault config ts e := by
  have hread : ∀ f ∈ p.functions, ∃ t ∈ ts, t.resolve = .ok f := by
    intro f hf
    obtain ⟨i, hi, rfl⟩ := List.getElem_of_mem hf
    have hlen := hts.length_eq
    exact ⟨ts[i], List.getElem_mem _, (List.forall₂_iff_get.mp hts).2 i (hlen ▸ hi) hi⟩
  rcases bind_eq_error h with hflow | ⟨u, -, h⟩
  · obtain ⟨f, hf, herror⟩ := exists_of_forM_eq_error hflow
    obtain ⟨t, ht, hresolve⟩ := hread f hf
    have hdescribes := (describes_of_resolve hresolve).1
    rcases Function.of_checkFlow_error hdescribes herror with ⟨hnil, b, rfl⟩ | ⟨hkeep, b, rfl⟩
    · rw [hdescribes.name]
      exact .missingTerminator t ht hnil b
    · exact .unreachableBlock hkeep f.name b
  · rcases bind_eq_error h with hfunctions | ⟨u, -, h⟩
    · obtain ⟨f, hf, herror⟩ := exists_of_forM_eq_error hfunctions
      obtain ⟨g, hg, hvars, hblocks⟩ := mem_functions_checked hf
      obtain ⟨t, -, hresolve⟩ := hread g hg
      have hmentions := (describes_of_resolve hresolve).2
      rcases bind_eq_error herror with hvariables | ⟨u, -, hcalls⟩
      · refine absurd hvariables (Function.checkVariables_ne_error fun block hblock v hv => ?_)
        rw [hvars]
        exact hmentions block (hblocks hblock) v hv
      · obtain ⟨callee, expected, found, rfl, hne⟩ := Function.of_checkCalls_error hcalls
        exact .arityMismatch f.name callee expected found hne
    · rcases bind_eq_error h with hsources | ⟨u, -, h⟩
      · refine .config (configFault_of_checkSources ?_ hsources)
        split
        · exact names_map p _ _
        · rfl
      · exact nomatch h

/-- A program that was read from a text has the blocks of the text, and of the faults that the
checks look for it can have few. No variable of it is undeclared and no jump of it goes nowhere. -/
theorem faults_of_ofSource {text : String} (h : ofSource text = .ok p) :
    ∃ ts, Tree.parse text = some ts ∧ List.Forall₂ Tree.Function.Describes ts p.functions ∧
      ∀ config e, p.validate config = .error e → p.TextFault config ts e := by
  rw [ofSource] at h
  split at h
  · next ts hts =>
    obtain ⟨fs, hfs, hall⟩ := functions_foldlM h
    have hfunctions : p.functions = fs := hfs
    refine ⟨ts, hts, ?_, fun config e he => textFault_of_validate (hfunctions ▸ hall) he⟩
    rw [hfunctions]
    exact hall.imp fun t f ht => (describes_of_resolve ht).1
  · exact nomatch h

/-- A function that branches to its second block either way. -/
def fork : Program where
  functions :=
    [{ name := "f"
       returns := .int 32
       vars := [⟨"n", .int 32, .param⟩]
       blocks := .ofList [(0, ⟨[], .branch (.var 0) 1 1⟩), (1, ⟨[], .ret (some (.var 0))⟩)]
       entry := 0
       nextBlock := 2 }]
  distinct := by decide

theorem faults_of_ofSource_fork :
    ofSource "fn f(n: i32) -> i32 \x7b a: br n, b, b; b: ret n; \x7d" = .ok fork ∧
    ∃ ts, Tree.parse "fn f(n: i32) -> i32 \x7b a: br n, b, b; b: ret n; \x7d" = some ts ∧
      List.Forall₂ Tree.Function.Describes ts fork.functions ∧
      ∀ config e, fork.validate config = .error e → fork.TextFault config ts e := by
  have hread : ofSource "fn f(n: i32) -> i32 \x7b a: br n, b, b; b: ret n; \x7d" = .ok fork := by
    decide +kernel
  exact ⟨hread, faults_of_ofSource hread⟩

end Program

end TaintAnalysis
