import Mathlib
import TaintAnalysis.Proofs.Memory.Facts

/-!
# Asking about pointers

Once the analysis has ended, the solver asks where places lead, what expressions
refer to and where variables are kept, and a question may name locations that
were not named before. The type of a location is settled when it is first named,
and it decides whether an index follows a stored pointer and which indices are
within bounds. So the answer to a question might depend on the questions before
it.

It does not: an answer, read as a set of access paths, is the one that the facts
at the end of the analysis give, whatever has been named since. And what had a
number before a question keeps it, with its type and its parent.
-/

namespace TaintAnalysis

namespace Arena

variable {y : Layout} {a b : Arena} {id : LocId} {l : Location}

/-! ## What naming more leaves alone -/

theorem Extends.find? (hab : a.Extends b) (h : a.find? l = some id) : b.find? l = some id := by
  obtain ⟨rest, hrest⟩ := hab
  rw [Arena.find?, ← hrest, List.findIdx?_append, show List.findIdx? _ a.named = _ from h]
  rfl

theorem Extends.parent? (hab : a.Extends b) (hw : a.WellFormed y) (hid : id < a.size) :
    b.parent? id = a.parent? id := by
  rw [Arena.parent?, hab.location hid]
  cases hp : (a.location id).parent? with
  | none => rw [Arena.parent?, hp]; rfl
  | some parent =>
      obtain ⟨i, hi, -⟩ := hw.parent?_of_some (points_location hid) hp
      have hfind : a.find? parent = some i := by rwa [Arena.parent?, hp] at hi
      rw [hi]
      exact hab.find? hfind

/-- A list of locations in which every member of another list occurs once. -/
structure Enumerates (ls' ls : List Location) : Prop where
  nodup : ls'.Nodup
  mem_iff : ∀ l, l ∈ ls' ↔ l ∈ ls

theorem Enumerates.perm {ls ls' ls'' : List Location} (h : Enumerates ls' ls)
    (h' : Enumerates ls'' ls) : ls'.Perm ls'' :=
  (List.perm_ext_iff_of_nodup h.nodup h'.nodup).mpr fun l =>
    (h.mem_iff l).trans (h'.mem_iff l).symm

theorem Enumerates.eq_singleton {ls : List Location} (h : Enumerates ls [l]) : ls = [l] :=
  List.perm_singleton.mp (h.perm ⟨List.nodup_singleton l, fun _ => Iff.rfl⟩)

/-- Different numbers of a set stand for different locations. -/
theorem Denotes.enumerates {s : IdSet} {ls : List Location} (hs : a.Denotes s.elems ls)
    (hw : a.WellFormed y) : Enumerates (s.elems.map a.location) ls where
  nodup := List.Nodup.map_on (fun i hi j hj hij =>
    hw.eq_of_location_eq ⟨hs.1 i hi, rfl⟩ ⟨hs.1 j hj, hij.symm⟩) s.nodup
  mem_iff := fun l => List.mem_map.trans (hs.2 l).symm

end Arena

/-- A question about what pointers refer to. -/
inductive Query where
  /-- Where a place leads. -/
  | resolve (p : Place)
  /-- What the value of an expression refers to. -/
  | targets (e : Expr)
  /-- Where a variable is kept. -/
  | storage (v : VarId)

namespace PointsTo

open Arena

variable {m : PointsTo} {D : Nat} {a : Arena}

/-! ## Asking -/

/-- The locations that are named to answer a query. -/
def ask (m : PointsTo) : Query → Naming Unit
  | .resolve p => discard (m.resolve p)
  | .targets e => discard (m.exprTargets e)
  | .storage v => discard (m.varLocation v)

theorem ask_grows (h : m.Ready D a) (q : Query) :
    GrowsTo (m.layout D) (fun _ => True) a ((m.ask q).run a).2 := by
  cases q with
  | resolve p => exact (resolve_found h p).grows
  | targets e => exact (exprTargets_found h e).1
  | storage v => exact (varLocation_found h v).1

/-- What is named after the analysis and the queries that were asked since. -/
def arenaAfter (f : Function) (config : Config) (asked : List Query) : Arena :=
  ((asked.forM (analyze f config).1.ask).run (analyze f config).2).2

/-- Where a place leads, by path, when queries have been asked before. -/
def resolutionAfter (f : Function) (config : Config) (asked : List Query) (p : Place) :
    PathResolution :=
  let found := ((analyze f config).1.resolve p).run (arenaAfter f config asked)
  { targets := found.1.targets.elems.map found.2.location
    pointerCells := found.1.pointerCells.elems.map found.2.location
    derefsBase := found.1.derefsBase }

/-- What an expression refers to, by path, when queries have been asked before. -/
def targetsAfter (f : Function) (config : Config) (asked : List Query) (e : Expr) :
    List Location :=
  let found := ((analyze f config).1.exprTargets e).run (arenaAfter f config asked)
  found.1.elems.map found.2.location

/-! ## Queries are independent -/

section

variable (f : Function) (config : Config) (asked later : List Query)

theorem arenaAfter_append : arenaAfter f config (asked ++ later) =
    ((later.forM (analyze f config).1.ask).run (arenaAfter f config asked)).2 := by
  rw [arenaAfter, List.forM_eq_forM, List.forM_append]
  rfl

theorem arenaAfter_ready : (analyze f config).1.Ready config.maxPathDepth
    (arenaAfter f config asked) :=
  have h := (analyze_advances f config).ready
  h.grow (forM_grows h fun _ hb q _ => ask_grows hb q)

theorem arenaAfter_extends :
    (arenaAfter f config asked).Extends (arenaAfter f config (asked ++ later)) := by
  rw [arenaAfter_append]
  exact (forM_grows (arenaAfter_ready f config asked) fun _ hb q _ => ask_grows hb q).extend

/-- Queries leave the facts alone. -/
theorem pathFacts_arenaAfter : (analyze f config).1.pathFacts config.maxPathDepth
    (arenaAfter f config asked) = finalFacts f config :=
  have h := (analyze_advances f config).ready
  pathFacts_eq h.inRange (forM_grows h fun _ hb q _ => ask_grows hb q).extend

/-- Where a place leads is what the facts at the end of the analysis say. -/
theorem resolutionAfter_enumerates (p : Place) :
    Enumerates (resolutionAfter f config asked p).targets
        ((finalFacts f config).resolve p).targets ∧
      Enumerates (resolutionAfter f config asked p).pointerCells
        ((finalFacts f config).resolve p).pointerCells ∧
      (resolutionAfter f config asked p).derefsBase =
        ((finalFacts f config).resolve p).derefsBase := by
  obtain ⟨hgrows, htargets, hcells, hbase, -⟩ :=
    resolve_found (arenaAfter_ready f config asked) p
  rw [pathFacts_arenaAfter f config asked] at htargets hcells hbase
  exact ⟨htargets.enumerates hgrows.wellFormed, hcells.enumerates hgrows.wellFormed, hbase⟩

/-- So is what an expression refers to. -/
theorem targetsAfter_enumerates (e : Expr) :
    Enumerates (targetsAfter f config asked e) ((finalFacts f config).exprTargets e) := by
  obtain ⟨hgrows, htargets⟩ :=
    exprTargets_found (arenaAfter_ready f config asked) e
  rw [pathFacts_arenaAfter f config asked] at htargets
  exact htargets.enumerates hgrows.wellFormed

end

/-- Answers do not depend on what was asked before, and what was named before further
queries keeps its number, its type and its parent. -/
theorem queries_independent (f : Function) (config : Config) (asked asked' later : List Query) :
    (∀ p,
      (resolutionAfter f config asked p).targets.Perm
          (resolutionAfter f config asked' p).targets ∧
        (resolutionAfter f config asked p).pointerCells.Perm
          (resolutionAfter f config asked' p).pointerCells ∧
        (resolutionAfter f config asked p).derefsBase =
          (resolutionAfter f config asked' p).derefsBase) ∧
      (∀ e, (targetsAfter f config asked e).Perm (targetsAfter f config asked' e)) ∧
      (∀ id < (arenaAfter f config asked).size,
        (arenaAfter f config (asked ++ later)).named[id]? =
            (arenaAfter f config asked).named[id]? ∧
          (arenaAfter f config (asked ++ later)).parent? id =
            (arenaAfter f config asked).parent? id) ∧
      ∀ l id, (arenaAfter f config asked).find? l = some id →
        (arenaAfter f config (asked ++ later)).find? l = some id := by
  have hready := arenaAfter_ready f config asked
  have hextends := arenaAfter_extends f config asked later
  refine ⟨fun p => ?_, fun e => ?_, fun id hid => ?_, fun l id hl => hextends.find? hl⟩
  · obtain ⟨htargets, hcells, hbase⟩ := resolutionAfter_enumerates f config asked p
    obtain ⟨htargets', hcells', hbase'⟩ := resolutionAfter_enumerates f config asked' p
    exact ⟨htargets.perm htargets', hcells.perm hcells', hbase.trans hbase'.symm⟩
  · exact (targetsAfter_enumerates f config asked e).perm
      (targetsAfter_enumerates f config asked' e)
  · exact ⟨hextends.getElem? hid, hextends.parent? hready.wellFormed hid⟩

end PointsTo

/-! ## A pointer in a table -/

/-- A function that keeps a pointer to an element of the array `x` in a table. -/
def tabling : Function where
  name := "tabling"
  returns := .void
  vars :=
    [⟨"x", .array (.int 32) (some 8), .local⟩,
      ⟨"table", .array (.pointer (.int 32)) (some 2), .local⟩, ⟨"p", .pointer (.int 32), .local⟩]
  blocks := .ofList
    [(0, ⟨[.assign 2 (.addrOf (.index (.var 0) (.const 1))),
      .store (.index (.var 1) (.const 1)) (.var 2)], .ret none⟩)]
  entry := 0
  nextBlock := 1

/-- The place `table[1][2]` leads to `x[3]`, whether or not `x[3]` was named when other places
were asked about, and `x[1]` keeps its number and its type. -/
theorem queries_independent_tabling :
    let place : Place := .index (.index (.var 1) (.const 1)) (.const 2)
    let asked : List Query := [.targets (.addrOf (.index (.var 0) (.const 3))), .storage 2]
    (PointsTo.resolutionAfter tabling .standard asked place).targets.Perm
        [⟨.variable 0, [.index (some 3)]⟩] ∧
      (PointsTo.arenaAfter tabling .standard (asked ++ [.resolve place])).find?
        ⟨.variable 0, [.index (some 1)]⟩ = some 2 ∧
      (PointsTo.arenaAfter tabling .standard (asked ++ [.resolve place])).named[2]? =
        (PointsTo.arenaAfter tabling .standard asked).named[2]? := by
  intro place asked
  have hfound : (PointsTo.arenaAfter tabling .standard asked).find?
      ⟨.variable 0, [.index (some 1)]⟩ = some 2 := by decide_cbv
  obtain ⟨hresolve, -, hkept, hfind⟩ :=
    PointsTo.queries_independent tabling .standard asked [] [.resolve place]
  refine ⟨(hresolve place).1.trans (.of_eq ?_), hfind _ 2 hfound,
    (hkept 2 (Arena.find?_some hfound).1).1⟩
  decide_cbv

end TaintAnalysis
