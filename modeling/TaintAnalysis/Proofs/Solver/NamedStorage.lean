import TaintAnalysis.Proofs.Memory.NamedStorage
import TaintAnalysis.Proofs.Solver.Growth

/-!
# Whose storage the solver names

The solver resolves places once more, those in index positions and in terminators included, and so
it may name storage that the pointer analysis did not name. What it names in a block is again a
matter of the text of the block. A run that converges has visited each block of its order at least
once, and so it ends with the storage of the same variables named as any other run on the function
that converges (`Run.final_has_iff`).
-/

namespace TaintAnalysis

open Arena

namespace Function

variable (f : Function)

/-- The storage that is named to compute the taint of an expression. -/
def evaluated (e : Expr) : List VarId :=
  e.addressed.flatMap f.stored

/-- The storage that is named to access a place. -/
def accessed (place : Place) : List VarId :=
  f.stored place ++ place.addressedInside.flatMap f.stored

/-- The storage that is named when an instruction is executed. -/
def executed : Instruction → List VarId
  | .assign _ e | .cast _ e _ => f.evaluated e
  | .load _ place => f.accessed place
  | .store place src => f.accessed place ++ f.evaluated src
  | .call _ _ args => args.flatMap fun arg => f.referred arg ++ f.evaluated arg
  | .opaqueCode touched _ => touched.flatMap f.arrays

/-- The storage that is named when a block is executed. -/
def executedIn (block : Block) : List VarId :=
  block.instructions.flatMap f.executed ++ block.terminator.operand?.toList.flatMap f.evaluated

end Function

variable {p : Problem} {s : State} {vs ws : List VarId}

/-! ## Evaluating -/

theorem naming_registers {α : Type} {n : Naming α} (h : Registers id vs ws n) :
    Registers Memory.arena vs ws (Effect.naming n) :=
  fun m => h m.arena

theorem read_registers (ids : IdSet) : Registers Memory.arena [] [] (Effect.read ids) :=
  fun _ => .refl _

theorem writeAll_registers (ids : IdSet) (v : Value) :
    Registers Memory.arena [] [] (Effect.writeAll p ids v) := by
  intro m
  show NamesBetween [] [] m.arena (ids.elems.foldl (fun m id => m.write p id v) m).arena
  rw [arena_writeAll]
  exact .refl _

/-- A variable that lives in memory has its storage named. -/
theorem storageOf_registers (v : VarId) :
    Registers Memory.arena [] [] (Effect.naming (p.storageOf v)) := by
  intro m
  show NamesBetween [] [] m.arena ((p.storageOf v).run m.arena).2
  rw [Problem.arena_storageOf]
  exact .refl _

theorem evalVar_registers (v : VarId) : Registers Memory.arena [] [] (p.evalVar s v) := by
  rw [evalVar_eq]
  exact .bind_left (storageOf_registers v) fun _ => .bind_left (read_registers _) fun _ => .pure _

theorem addressTaint_registers (base : VarId) (r : Resolution) {c : Effect Value}
    (hc : Registers Memory.arena vs ws c) :
    Registers Memory.arena vs ws (p.addressTaint s base r c) := by
  have hrest (x : Value) : Registers Memory.arena vs ws (do
      let pointers ← Effect.read r.pointerCells
      return (x.join pointers).join (← c)) :=
    .bind_right (read_registers _) fun _ => .bind_left hc fun _ => .pure _
  rw [Problem.addressTaint]
  split
  · exact .bind_right (evalVar_registers base) hrest
  · exact .bind_right (.pure _) hrest

mutual

theorem eval_registers : ∀ e : Expr, Registers Memory.arena (p.pointsTo.function.evaluated e)
    (p.pointsTo.function.evaluated e) (p.eval s e)
  | .var v => by
      rw [Problem.eval, Function.evaluated, Expr.addressed]
      exact evalVar_registers v
  | .const _ => by
      rw [Problem.eval, Function.evaluated, Expr.addressed]
      exact .pure _
  | .unary _ e => by
      rw [Problem.eval, Function.evaluated, Expr.addressed]
      exact eval_registers e
  | .binary _ l r => by
      rw [Problem.eval, Function.evaluated, Expr.addressed, List.flatMap_append]
      exact .bind (eval_registers l) fun _ => .bind_left (eval_registers r) fun _ => .pure _
  | .addrOf place => by
      rw [Problem.eval, Function.evaluated, Expr.addressed, List.flatMap_cons]
      exact .bind (naming_registers (PointsTo.resolve_registers _ place)) fun r =>
        .bind_left (addressTaint_registers place.base r (evalPositions_registers place))
          fun _ => .pure _

theorem evalPositions_registers : ∀ place : Place, Registers Memory.arena
    (place.addressedInside.flatMap p.pointsTo.function.stored)
    (place.addressedInside.flatMap p.pointsTo.function.stored) (p.evalPositions s place)
  | .var _ => by
      rw [Problem.evalPositions, Place.addressedInside]
      exact .pure _
  | .deref inner => by
      rw [Problem.evalPositions, Place.addressedInside]
      exact evalPositions_registers inner
  | .field inner _ => by
      rw [Problem.evalPositions, Place.addressedInside]
      exact evalPositions_registers inner
  | .index inner e => by
      rw [Problem.evalPositions, Place.addressedInside, List.flatMap_append]
      exact .bind (evalPositions_registers inner) fun _ =>
        .bind_left (eval_registers e) fun _ => .pure _

end

theorem evalArgument_registers (arg : Expr) : Registers Memory.arena
    (p.pointsTo.function.referred arg ++ p.pointsTo.function.evaluated arg)
    (p.pointsTo.function.referred arg ++ p.pointsTo.function.evaluated arg)
    (p.evalArgument s arg) :=
  .bind (naming_registers (PointsTo.exprTargets_registers _ arg)) fun _ =>
    .bind_left (eval_registers arg) fun _ => .bind_left (read_registers _) fun _ => .pure _

/-! ## Writing -/

theorem define_registers (v : VarId) (value : Value) :
    Registers Memory.arena [] [] (p.define s v value) := by
  rw [define_eq_writeAll]
  exact .bind_left (storageOf_registers v) fun _ =>
    .bind_left (writeAll_registers _ _) fun _ => .pure _

theorem writeThrough_registers (value : Value) (arg : Expr) :
    Registers Memory.arena (p.pointsTo.function.referred arg) (p.pointsTo.function.referred arg)
      (p.writeThrough value arg) :=
  .bind_left (naming_registers (PointsTo.exprTargets_registers _ arg)) fun _ =>
    writeAll_registers _ _

/-- Only what arguments refer to is named on the way. -/
theorem summaryLoop_registers (around : Surroundings) (args : List Expr) (actuals : List Value)
    (outs : List (Nat × Value)) (s : State) :
    Registers Memory.arena [] (args.flatMap p.pointsTo.function.referred)
      (do
        for (i, written) in outs do
          if let some arg := args[i]? then
            p.writeThrough ((written.substitute actuals).join around.control) arg
        return s) := by
  induction outs with
  | nil => exact Registers.mono (.pure s) (List.Subset.refl _) (List.nil_subset _)
  | cons out rest ih =>
      obtain ⟨i, written⟩ := out
      rw [List.forIn_cons]
      cases harg : args[i]? with
      | none =>
          simp only [pure_bind, harg]
          exact ih
      | some arg =>
          have hsubset : p.pointsTo.function.referred arg ⊆
              args.flatMap p.pointsTo.function.referred := fun v hv =>
            List.mem_flatMap.mpr ⟨arg, List.mem_of_getElem? harg, hv⟩
          simp only [bind_assoc, pure_bind, harg]
          exact Registers.mono (.bind (writeThrough_registers _ arg) fun _ => ih)
            (List.nil_subset _) (List.append_subset.mpr ⟨hsubset, List.Subset.refl _⟩)

theorem callKnown_registers (around : Surroundings) (dst : Option VarId) (callee : Callee)
    (args : List Expr) (actuals : List Value) (summary : Summary) :
    Registers Memory.arena [] (args.flatMap p.pointsTo.function.referred)
      (p.callKnown around s dst callee args actuals summary) := by
  have hloop := summaryLoop_registers (p := p) around args actuals summary.outs
  cases dst with
  | none => exact .bind_right (.pure s) hloop
  | some v => exact .bind_right (define_registers v _) hloop

theorem callUnknown_registers (dst : Option VarId) (args : List Expr) :
    Registers Memory.arena [] (args.flatMap p.pointsTo.function.referred)
      (p.callUnknown s dst args) := by
  have hrest (s : State) : Registers Memory.arena [] (args.flatMap p.pointsTo.function.referred)
      (do args.forM (p.writeThrough p.allSources); return s) :=
    Registers.mono (.bind_left (.forM fun arg _ => writeThrough_registers _ arg) fun _ => .pure s)
      (List.nil_subset _) (List.Subset.refl _)
  cases dst with
  | none => exact .bind_right (.pure s) hrest
  | some v => exact .bind_right (define_registers v _) hrest

/-! ## Instructions -/

/-- Resolving a place and computing the taint of its address. -/
theorem access_registers {α : Type} {place : Place} {g : Resolution → Value → Effect α}
    (hg : ∀ r x, Registers Memory.arena vs vs (g r x)) :
    Registers Memory.arena (p.pointsTo.function.accessed place ++ vs)
      (p.pointsTo.function.accessed place ++ vs)
      (do
        let r ← Effect.naming (p.pointsTo.resolve place)
        let address ← p.addressTaint s place.base r (p.evalPositions s place)
        g r address) := by
  rw [Function.accessed, List.append_assoc]
  exact .bind (naming_registers (PointsTo.resolve_registers _ place)) fun r =>
    .bind (addressTaint_registers place.base r (evalPositions_registers place)) fun x => hg r x

/-- What a callee writes through the arguments is found as it was found for their values. -/
theorem call_registers (around : Surroundings) (dst : Option VarId) (callee : Callee)
    (args : List Expr) :
    let f := p.pointsTo.function
    Registers Memory.arena (f.executed (.call dst callee args))
      (f.executed (.call dst callee args)) (p.transfer around s (.call dst callee args)) := by
  intro f
  have hargs : Registers Memory.arena _ _ (args.mapM (p.evalArgument s)) :=
    .mapM fun arg _ => evalArgument_registers arg
  have hreferred : args.flatMap f.referred ⊆ f.executed (.call dst callee args) := fun v hv =>
    have ⟨arg, harg, hv⟩ := List.mem_flatMap.mp hv
    List.mem_flatMap.mpr ⟨arg, harg, List.mem_append_left _ hv⟩
  refine Registers.mono (hargs.bind fun actuals => ?_) (List.subset_append_left _ [])
    (List.append_subset.mpr ⟨List.Subset.refl _, hreferred⟩)
  cases p.summaryOf? callee with
  | some summary => exact callKnown_registers around dst callee args actuals summary
  | none => exact callUnknown_registers dst args

theorem transfer_registers (around : Surroundings) (s : State) (i : Instruction) :
    Registers Memory.arena (p.pointsTo.function.executed i) (p.pointsTo.function.executed i)
      (p.transfer around s i) := by
  cases i with
  | assign dst e | cast dst e ty =>
      exact .bind_left (eval_registers e) fun _ => define_registers dst _
  | load dst place =>
      rw [Function.executed, ← List.append_nil (p.pointsTo.function.accessed place)]
      exact access_registers fun r address =>
        .bind_left (read_registers _) fun _ => define_registers dst _
  | store place src =>
      exact access_registers fun r address => .bind_left (eval_registers src) fun _ =>
        .bind_left (writeAll_registers _ _) fun _ => .pure s
  | call dst callee args => exact call_registers around dst callee args
  | opaqueCode touched reason =>
      exact .foldlM (P := fun _ => True) (fun s _ v _ => .bind_right (define_registers v _)
        fun _ => .bind_left (writeThrough_registers _ (.var v)) fun _ => .pure _)
        (fun _ _ _ _ _ => trivial) trivial

theorem terminate_registers (around : Surroundings) (s : State) (t : Terminator) :
    Registers Memory.arena (t.operand?.toList.flatMap p.pointsTo.function.evaluated)
      (t.operand?.toList.flatMap p.pointsTo.function.evaluated) (p.terminate around s t) := by
  have heval (e : Expr) {g : Value → Effect (Value × Value)}
      (hg : ∀ x, Registers Memory.arena [] [] (g x)) :
      Registers Memory.arena ([e].flatMap p.pointsTo.function.evaluated)
        ([e].flatMap p.pointsTo.function.evaluated) (p.eval s e >>= g) := by
    rw [List.flatMap_singleton]
    exact .bind_left (eval_registers e) hg
  cases t with
  | jump target | missing => exact .pure _
  | branch condition thenBlock elseBlock => exact heval condition fun _ => .pure _
  | ret value =>
      cases value with
      | none => exact .pure _
      | some value => exact heval value fun _ => .pure _

/-! ## Visits -/

namespace Problem

variable {k : Knowledge} {b : BlockId} {block : Block} {a₀ : Arena} {v : VarId}

theorem visit_names (hblock : p.function.block? b = some block) :
    NamesBetween (p.pointsTo.function.executedIn block) (p.pointsTo.function.executedIn block)
      k.memory.arena (p.visit k b).memory.arena := by
  have hrun : Registers Memory.arena (p.pointsTo.function.executedIn block)
      (p.pointsTo.function.executedIn block) (do
        let s ← p.transferAll (p.surroundings k b) (p.entryState k b) block.instructions
        return (s, ← p.terminate (p.surroundings k b) s block.terminator)) :=
    .bind (.foldlM (P := fun _ => True) (fun s _ i _ => transfer_registers _ s i)
      (fun _ _ _ _ _ => trivial) trivial) fun s =>
        .bind_left (terminate_registers _ s block.terminator) fun _ => .pure _
  rw [memory_visit hblock]
  exact hrun k.memory

/-- The solver names the storage that the blocks of the order name. -/
theorem named_of_reached (h : p.Reached a₀ k) (hv : k.memory.arena.Has ⟨.variable v, []⟩) :
    a₀.Has ⟨.variable v, []⟩ ∨ ∃ b ∈ p.order, ∃ block, p.function.block? b = some block ∧
      v ∈ p.pointsTo.function.executedIn block := by
  induction h with
  | start => exact .inl hv
  | @visit k k' b _ hvisit ih =>
      cases hvisit with
      | @visit i _ rest _ _ hb =>
          rw [visit_worklist] at hv
          cases hblock : p.function.block? b with
          | none =>
              rw [visit, hblock] at hv
              exact ih hv
          | some block =>
              rcases (visit_names hblock).most v hv with hv | hv
              · exact ih hv
              · exact .inr ⟨b, List.mem_of_getElem? hb, block, hblock, hv⟩

end Problem

namespace Run

variable {f : Function} {config : Config} {table : SummaryTable} {peers : List String}

/-- The storage that is named at the end of a run that converged: what the pointer analysis names,
and what is named in the blocks of the order. -/
theorem final_has_iff (hdone : (ofFunction f config table peers).final.worklist.isEmpty = true)
    (v : VarId) : (ofFunction f config table peers).final.memory.arena.Has ⟨.variable v, []⟩ ↔
      v ∈ f.namedStorage ∨ ∃ b ∈ (Graph.ofFunction f).reversePostorder, ∃ block,
        f.block? b = some block ∧ v ∈ f.executedIn block := by
  have hfun : (Problem.ofFunction f config table peers).1.pointsTo.function = f :=
    (PointsTo.analyze_gains f config).function
  have hstart := readable_start f config table peers
  have hlater := Problem.known_later config.maxBlockVisits hstart
  constructor
  · intro hv
    rcases Problem.named_of_reached reached_ofFunction hv with hv | ⟨b, hb, block, hblock, hv⟩
    · exact .inl ((PointsTo.analyze_has_iff f config v).mp hv)
    · exact .inr ⟨b, hb, block, hblock, hfun ▸ hv⟩
  · intro hv
    rcases hv with hv | ⟨b, hb, block, hblock, hv⟩
    · exact hlater.1.extend.has ((PointsTo.analyze_has_iff f config v).mpr hv)
    · obtain ⟨n, hn⟩ := Problem.exists_position (p := (ofFunction f config table peers).problem) hb
      have hget := Problem.position?_some hn
      obtain ⟨e, he, rfl⟩ := Problem.visited_of_exhausted config.maxBlockVisits hdone
        (k := (ofFunction f config table peers).start)
        (IdSet.mem_ofList.mpr (List.mem_range.mpr (List.getElem?_eq_some_iff.mp hget).1)) hget
      have hvisit := Problem.visit_names (k := e.1)
        (p := (ofFunction f config table peers).problem) hblock
      exact (hlater.2 e he).2.extend.has (hvisit.least v (.inr (hfun.symm ▸ hv)))

end Run

end TaintAnalysis
