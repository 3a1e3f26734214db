import TaintAnalysis.Proofs.Flow.ExplicitStack
import TaintAnalysis.Proofs.Flow.Ways

/-!
# What the loops of a graph are

A loop is found from the back edges to its header. Its body is found backwards, from the sources
of these edges, by a search that does not go through the header, so a block other than the header
is in it if some way leads from the block to one of the sources without passing the header
(`Bypasses`). In this form nothing is left of how the blocks were found, and `IsLoop` says it of
every loop.

The loops are described all at once, with all back edges at hand. While the search for them is
going on, only some are, and each new one is added to the loop of its header if there is one
already. Adding the edges one after the other gives what describing them at once gives
(`foldl_addBackEdge`). The tests that leave a loop, and how deep it lies, are worked out when the
search is over and no loop grows any more (`finishLoops`).
-/

namespace TaintAnalysis

/-- What is put in ascending order matters only for what its members are. -/
theorem BlockId.ascending_congr {l l' : List BlockId} (h : ∀ b, b ∈ l ↔ b ∈ l') :
    ascending l = ascending l' := by
  have hnodup : ∀ l, (ascending l).Nodup := fun l => (pairwise_ascending l).imp UInt32.ne_of_lt
  refine ((List.perm_ext_iff_of_nodup (hnodup l) (hnodup l')).mpr fun b => ?_).eq_of_pairwise
    (fun b c _ _ hbc hcb => absurd hcb (UInt32.lt_asymm hbc)) (pairwise_ascending l)
    (pairwise_ascending l')
  rw [mem_ascending, mem_ascending, h b]

namespace Graph

variable {g : Graph} {h t b x y z : BlockId} {l : Loop}

/-! ## Bodies -/

/-- Some way leads from one block to another without passing `h`. -/
def Bypasses (g : Graph) (h x y : BlockId) : Prop :=
  ∃ way, g.Way x y way ∧ h ∉ way

theorem Bypasses.trans (hxy : g.Bypasses h x y) (hyz : g.Bypasses h y z) : g.Bypasses h x z := by
  obtain ⟨way, hway, hno⟩ := hxy
  obtain ⟨way', hway', hno'⟩ := hyz
  obtain ⟨joined, hjoined, hsub⟩ := hway.trans hway'
  refine ⟨joined, hjoined, fun hmem => ?_⟩
  rcases List.mem_append.mp (hsub hmem) with hmem | hmem
  · exact hno hmem
  · exact hno' hmem

/-- The blocks from which a block is entered, apart from the header. -/
def enteredFrom (g : Graph) (header b : BlockId) : List BlockId :=
  (g.predecessors b).filter (· ≠ header)

theorem mem_enteredFrom_iff : x ∈ g.enteredFrom h y ↔ y ∈ g.successors x ∧ x ≠ h := by
  rw [enteredFrom, List.mem_filter, mem_predecessors_iff, decide_eq_true_iff]

theorem enteredFrom_subset_nodes : ∀ x ∈ g.nodes, ∀ y ∈ g.enteredFrom h x, y ∈ g.nodes :=
  fun x hx y hy => predecessors_subset_nodes x hx y (List.mem_of_mem_filter hy)

/-- To go backwards without passing the header is to bypass it. -/
theorem bypasses_iff (hne : t ≠ h) :
    g.Bypasses h b t ↔ Relation.ReflTransGen (fun x y => y ∈ g.enteredFrom h x) t b := by
  constructor
  · rintro ⟨way, hway, hno⟩
    induction hway with
    | here => exact .refl
    | @step x y z way hstep _ ih =>
        simp only [List.mem_cons, not_or] at hno
        exact (ih hne hno.2).tail (mem_enteredFrom_iff.mpr ⟨hstep, Ne.symm hno.1⟩)
  · intro hback
    induction hback with
    | refl => exact ⟨[t], .here t, by simpa using hne.symm⟩
    | tail _ hstep ih =>
        obtain ⟨way, hway, hno⟩ := ih
        obtain ⟨hedge, hx⟩ := mem_enteredFrom_iff.mp hstep
        exact ⟨_, .step hedge hway, by simp [hno, hx.symm]⟩

theorem mem_loopBody_iff (ht : t ∈ g.nodes) : b ∈ g.loopBody h t ↔ b = h ∨ g.Bypasses h b t := by
  rw [loopBody]
  split
  · next hth =>
    have hnone : ¬ g.Bypasses h b t := fun ⟨_, hway, hno⟩ => hno (hth ▸ hway.last_mem)
    simp [hnone]
  · next hne =>
    have hstart : ∀ x ∈ [t], x ∈ g.nodes := by simpa using ht
    have hrun := Search.mem_run_iff (x := b) (enteredFrom_subset_nodes (g := g) (h := h))
      (Nat.le_of_eq g.length_nodes) hstart
    rw [List.mem_cons, bypasses_iff hne]
    refine or_congr_right (hrun.trans ?_)
    simp

/-- The worklist of blocks that are still to be gone back from comes to its end, with the body. -/
theorem exists_flood (ht : t ∈ g.nodes) (hne : t ≠ h) :
    ∃ w, EndsIn (Flood.step (g.enteredFrom h)) (Flood.begin t h) w ∧
      ∀ b, b ∈ w.marked ↔ b ∈ g.loopBody h t := by
  have hbarrier : ∀ x, h ∉ g.enteredFrom h x := fun x hx => (mem_enteredFrom_iff.mp hx).2 rfl
  obtain ⟨w, hend, hw⟩ := Flood.exists_end enteredFrom_subset_nodes ht hbarrier hne
  refine ⟨w, hend, fun b => ?_⟩
  rw [hw, mem_loopBody_iff ht, bypasses_iff hne]

/-! ## One loop for every header -/

theorem mem_headers_iff : h ∈ g.headers ↔ ∃ t, g.isBackEdge t h = true := by
  rw [headers, mem_foldl_collect_iff]
  simp [isBackEdge]

theorem nodup_headers (g : Graph) : g.headers.Nodup :=
  nodup_foldl_collect List.nodup_nil

/-- A loop with the number of other loops that contain its header. -/
def ranked (found : List Loop) (l : Loop) : Loop :=
  { l with depth := found.countP fun other => other.header ≠ l.header ∧ l.header ∈ other.body }

theorem loops_eq (g : Graph) :
    g.loops = (g.headers.map g.loopOf).map (ranked (g.headers.map g.loopOf)) :=
  rfl

theorem map_header_loops (g : Graph) : g.loops.map Loop.header = g.headers := by
  rw [loops_eq, List.map_map, List.map_map]
  exact List.map_id _

theorem nodup_header_loops (g : Graph) : (g.loops.map Loop.header).Nodup :=
  g.map_header_loops ▸ g.nodup_headers

/-- Loops are told from one another by their headers. -/
theorem eq_of_header {m : Loop} (hl : l ∈ g.loops) (hm : m ∈ g.loops)
    (heq : l.header = m.header) : l = m :=
  List.inj_on_of_nodup_map g.nodup_header_loops hl hm heq

theorem depth_of_mem (hl : l ∈ g.loops) :
    l.depth = g.loops.countP fun other => other.header ≠ l.header ∧ l.header ∈ other.body := by
  rw [loops_eq] at hl ⊢
  obtain ⟨l, -, rfl⟩ := List.mem_map.mp hl
  rw [List.countP_map]
  rfl

theorem mem_nodes_of_isBackEdge (ht : g.isBackEdge t h = true) : t ∈ g.nodes :=
  mem_nodes_of_block (mem_blocks_of_successor (edge_of_isBackEdge ht).1)

/-- What a loop consists of, in terms of the edges of the graph. -/
structure IsLoop (g : Graph) (l : Loop) : Prop where
  tails : ∀ t, t ∈ l.tails ↔ g.isBackEdge t l.header = true
  body : ∀ b, b ∈ l.body ↔ b = l.header ∨ ∃ t ∈ l.tails, g.Bypasses l.header b t
  exiting : ∀ b, b ∈ l.exiting ↔ b ∈ l.body ∧ ∃ s ∈ g.successors b, s ∉ l.body
  ascending : l.body.Pairwise (· < ·) ∧ l.exiting.Pairwise (· < ·)

theorem isLoop_of_mem (hl : l ∈ g.loops) : g.IsLoop l := by
  rw [loops_eq, List.map_map] at hl
  obtain ⟨h, hh, rfl⟩ := List.mem_map.mp hl
  have htails : ∀ t, t ∈ (g.loopOf h).tails ↔ g.isBackEdge t h = true := by
    simp [loopOf, isBackEdge]
  refine ⟨htails, fun b => ?_, fun b => ?_, ?_, ?_⟩
  · obtain ⟨t₀, ht₀⟩ := mem_headers_iff.mp hh
    have hbody : ∀ t ∈ (g.loopOf h).tails, b ∈ g.loopBody h t ↔ b = h ∨ g.Bypasses h b t :=
      fun t ht => mem_loopBody_iff (mem_nodes_of_isBackEdge ((htails t).mp ht))
    show b ∈ BlockId.ascending ((g.loopOf h).tails.flatMap (g.loopBody h)) ↔
      b = h ∨ ∃ t ∈ (g.loopOf h).tails, g.Bypasses h b t
    rw [BlockId.mem_ascending, List.mem_flatMap]
    constructor
    · rintro ⟨t, ht, hb⟩
      exact ((hbody t ht).mp hb).imp_right fun hb => ⟨t, ht, hb⟩
    · rintro (hb | ⟨t, ht, hb⟩)
      · exact ⟨t₀, (htails t₀).mpr ht₀, (hbody t₀ ((htails t₀).mpr ht₀)).mpr (.inl hb)⟩
      · exact ⟨t, ht, (hbody t ht).mpr (.inr hb)⟩
  · show b ∈ (g.loopOf h).body.filter (fun b => (g.successors b).any (· ∉ (g.loopOf h).body)) ↔
      b ∈ (g.loopOf h).body ∧ ∃ s ∈ g.successors b, s ∉ (g.loopOf h).body
    simp only [List.mem_filter, List.any_eq_true, decide_eq_true_eq]
  · exact BlockId.pairwise_ascending _
  · exact (BlockId.pairwise_ascending _).filter _

theorem IsLoop.header_mem (hl : g.IsLoop l) : l.header ∈ l.body :=
  (hl.body l.header).mpr (.inl rfl)

/-! ## Putting loops together one edge at a time -/

section

variable {es : List (BlockId × BlockId)} {hs : List BlockId}

/-- The sources of the edges to a header, among some edges. -/
def tailsAmong (es : List (BlockId × BlockId)) (header : BlockId) : List BlockId :=
  (es.filter fun e => e.2 = header).map Prod.fst

/-- The loop of a header that some edges make up, before it is finished. -/
def loopAmong (g : Graph) (es : List (BlockId × BlockId)) (header : BlockId) : Loop where
  header := header
  body := BlockId.ascending ((tailsAmong es header).flatMap (g.loopBody header))
  tails := tailsAmong es header
  exiting := []
  depth := 0

theorem tailsAmong_append (es : List (BlockId × BlockId)) (t h : BlockId) :
    tailsAmong (es ++ [(t, h)]) h = tailsAmong es h ++ [t] := by
  simp [tailsAmong]

theorem loopAmong_append_of_ne (hne : x ≠ h) :
    g.loopAmong (es ++ [(t, h)]) x = g.loopAmong es x := by
  have hsame : tailsAmong (es ++ [(t, h)]) x = tailsAmong es x := by
    simp [tailsAmong, hne.symm]
  rw [loopAmong, hsame, loopAmong]

/-- A further edge to the header of a loop. -/
theorem loopAmong_append (g : Graph) (es : List (BlockId × BlockId)) (t h : BlockId) :
    g.loopAmong (es ++ [(t, h)]) h =
      { g.loopAmong es h with
        body := BlockId.ascending ((g.loopAmong es h).body ++ g.loopBody h t)
        tails := (g.loopAmong es h).tails ++ [t] } := by
  simp only [loopAmong, tailsAmong_append, Loop.mk.injEq, true_and, and_true]
  refine BlockId.ascending_congr fun b => ?_
  simp

theorem addBackEdge_map (hnodup : hs.Nodup) (hnew : h ∈ hs ∨ tailsAmong es h = []) :
    g.addBackEdge t h (hs.map (g.loopAmong es)) =
      (if h ∈ hs then hs else hs ++ [h]).map (g.loopAmong (es ++ [(t, h)])) := by
  induction hs with
  | nil =>
      have hnone := hnew.resolve_left List.not_mem_nil
      simp [addBackEdge, loopAmong, tailsAmong_append, hnone]
  | cons h' rest ih =>
      obtain ⟨hfresh, hrest⟩ := List.nodup_cons.mp hnodup
      by_cases hh : h' = h
      · subst hh
        have hothers : rest.map (g.loopAmong (es ++ [(t, h')])) = rest.map (g.loopAmong es) := by
          refine List.map_congr_left fun x hx => loopAmong_append_of_ne ?_
          rintro rfl
          exact hfresh hx
        rw [if_pos List.mem_cons_self, List.map_cons, List.map_cons, hothers, loopAmong_append]
        exact if_pos rfl
      · have hmem : h ∈ h' :: rest ↔ h ∈ rest := by simp [Ne.symm hh]
        have hadd := ih hrest (hnew.imp_left hmem.mp)
        rw [List.map_cons, addBackEdge, if_neg (show (g.loopAmong es h').header ≠ h from hh), hadd,
          ← loopAmong_append_of_ne (t := t) hh]
        by_cases hrest' : h ∈ rest
        · rw [if_pos hrest', if_pos (hmem.mpr hrest'), List.map_cons]
        · rw [if_neg hrest', if_neg (mt hmem.mp hrest'), List.cons_append, List.map_cons]

/-- Adding one edge after the other puts together the loops of all of them. -/
theorem foldl_addBackEdge (g : Graph) (es : List (BlockId × BlockId)) :
    es.foldl (fun loops e => g.addBackEdge e.1 e.2 loops) [] =
      ((es.map Prod.snd).foldl (fun hs h => if h ∈ hs then hs else hs ++ [h]) []).map
        (g.loopAmong es) := by
  induction es using List.reverseRecOn with
  | nil => rfl
  | append_singleton es e ih =>
      obtain ⟨t, h⟩ := e
      rw [List.foldl_append, ih, List.map_append, List.foldl_append]
      refine addBackEdge_map (nodup_foldl_collect List.nodup_nil) ?_
      rw [mem_foldl_collect_iff]
      by_cases hh : h ∈ es.map Prod.snd
      · exact .inl (.inr hh)
      · right
        simp only [List.mem_map, not_exists, not_and] at hh
        simpa [tailsAmong] using fun t x he => hh (t, x) he

end

/-! ## Finishing the loops -/

/-- A loop with the blocks from which a step leaves it. -/
def withExits (g : Graph) (l : Loop) : Loop :=
  { l with exiting := l.body.filter fun b => (g.successors b).any (· ∉ l.body) }

/-- Works out the exits and the depth of the loops that were found. A loop is told from the others
by its place in the list. -/
def finishLoops (g : Graph) (found : List Loop) : List Loop :=
  let found := found.map g.withExits
  found.zipIdx.map fun e =>
    { e.1 with
      depth := found.zipIdx.countP fun other => other.2 ≠ e.2 ∧ e.1.header ∈ other.1.body }

/-- Loops with different headers can be told from one another by the header as well. -/
theorem countP_zipIdx {found : List Loop} (hnodup : (found.map Loop.header).Nodup) {i : Nat}
    (hl : (l, i) ∈ found.zipIdx) :
    (found.zipIdx.countP fun other => other.2 ≠ i ∧ l.header ∈ other.1.body) =
      found.countP fun other => other.header ≠ l.header ∧ l.header ∈ other.body := by
  conv_rhs => rw [← List.zipIdx_map_fst 0 found, List.countP_map]
  refine List.countP_congr fun other hother => ?_
  obtain ⟨m, j⟩ := other
  have hi : found[i]? = some l := List.mem_zipIdx_iff_getElem?.mp hl
  have hj : found[j]? = some m := List.mem_zipIdx_iff_getElem?.mp hother
  have hsame : j = i ↔ m.header = l.header := by
    constructor
    · rintro rfl
      rw [Option.some.inj (hj.symm.trans hi)]
    · intro hheader
      have hlt : j < (found.map Loop.header).length := by
        rw [List.length_map]
        exact (List.getElem?_eq_some_iff.mp hj).1
      refine (List.getElem?_inj hlt hnodup).mp ?_
      rw [List.getElem?_map, List.getElem?_map, hi, hj, Option.map_some, Option.map_some, hheader]
  simp [hsame]

/-- What the search for loops puts together, finished, are the loops of the graph. -/
theorem finishLoops_eq (g : Graph) :
    g.finishLoops (g.backEdges.foldl (fun loops e => g.addBackEdge e.1 e.2 loops) []) =
      g.loops := by
  have hfound : (g.headers.map (g.loopAmong g.backEdges)).map g.withExits =
      g.headers.map g.loopOf := by
    rw [List.map_map]
    rfl
  have hnodup : ((g.headers.map g.loopOf).map Loop.header).Nodup := by
    rw [List.map_map]
    exact (List.map_id _).symm ▸ g.nodup_headers
  rw [foldl_addBackEdge]
  show g.finishLoops (g.headers.map (g.loopAmong g.backEdges)) = g.loops
  rw [finishLoops, hfound, loops_eq]
  generalize g.headers.map g.loopOf = found at hnodup ⊢
  calc
    _ = found.zipIdx.map (ranked found ∘ Prod.fst) :=
      List.map_congr_left fun e he => by rw [countP_zipIdx hnodup he]; rfl
    _ = found.map (ranked found) := by rw [← List.map_map, List.zipIdx_map_fst]

end Graph

end TaintAnalysis
