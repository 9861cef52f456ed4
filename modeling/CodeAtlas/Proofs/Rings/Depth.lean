import CodeAtlas.Proofs.Rings.Completeness
import CodeAtlas.Proofs.Search.Cuts

/-! Rings and the greatest depth. A ring is found exactly if there is a loop no import of which is
passed over because it leads too far down. A greater depth passes over other imports, so it may
pass over one of every loop although a smaller one does not. -/

namespace CodeAtlas.Dependency

theorem isChain_iff_forall_pair {R : String → String → Prop} {walk : List String} :
    walk.IsChain R ↔ ∀ a b, [a, b] <:+: walk → R a b :=
  ⟨fun h _ _ hab => List.isChain_pair.mp <| List.IsChain.infix h hab,
    fun h => (List.isChain_isInfix walk).imp h⟩

namespace Graph

variable {g h : Graph} {a b : String} {walk : List String} {d d' : Nat} {edits : List Edit}

theorem loop_uncut : g.uncut.Loop walk ↔
    g.Loop walk ∧ ∀ a b, [a, b] <:+: walk → (a, b) ∉ g.cuts := by
  have himports : walk.IsChain g.uncut.FileImport ↔
      walk.IsChain g.FileImport ∧ ∀ a b, [a, b] <:+: walk → (a, b) ∉ g.cuts := by
    simp only [isChain_iff_forall_pair, fileImport_uncut]
    exact ⟨fun h => ⟨fun a b hab => (h a b hab).1, fun a b hab => (h a b hab).2⟩,
      fun h a b hab => ⟨h.1 a b hab, h.2 a b hab⟩⟩
  rw [loop_iff, loop_iff, himports]
  tauto

/-- A ring is found exactly if there is a loop of imports that are all followed. -/
theorem cycles_ne_nil_iff (hg : g.WellFormed) : g.cycles ≠ [] ↔
    ∃ walk, g.Loop walk ∧ ∀ a b, [a, b] <:+: walk → (a, b) ∉ g.cuts := by
  rw [← cycles_uncut hg]
  constructor
  · intro hne
    obtain ⟨r, hr⟩ := List.exists_mem_of_ne_nil _ hne
    exact ⟨r.stops, loop_uncut.mp (loop_of_mem_cycles hg.uncut hr)⟩
  · rintro ⟨walk, hwalk⟩
    obtain ⟨-, -, -, r, hr, -⟩ :=
      exists_closing_of_loop hg.uncut (Nat.le_max_right _ _) (loop_uncut.mpr hwalk)
    exact List.ne_nil_of_mem hr

theorem self_not_mem_cuts (hg : g.WellFormed) : (a, a) ∉ g.cuts := by
  intro hcut
  obtain ⟨s, hs, ⟨pending, rest, hstack⟩, hu, -⟩ := (mem_cuts hg).mp hcut
  refine (hs.invariant hg).not_mem_entered_of_unseen hg hu ?_
  rw [Search.entered, hstack]
  exact List.mem_cons_self

theorem cuts_eq_nil (hg : g.WellFormed) (hdepth : g.files.length ≤ g.maxDepth) : g.cuts = [] := by
  refine List.eq_nil_iff_forall_not_mem.mpr fun ⟨a, b⟩ hcut => ?_
  obtain ⟨s, hs, -, hu, hlow⟩ := (mem_cuts hg).mp hcut
  exact absurd ((hs.invariant hg).height_lt hdepth hu) (Nat.not_lt.mpr hlow)

/-- With a depth of one at the most, a file closes no ring but with itself. -/
theorem exists_loop_pair (hg : g.WellFormed) (hdepth : g.maxDepth ≤ 1) (hne : g.cycles ≠ []) :
    ∃ a, g.Loop [a, a] := by
  obtain ⟨⟨stops⟩, hr⟩ := List.exists_mem_of_ne_nil _ hne
  have hloop : g.Loop stops := loop_of_mem_cycles hg hr
  have hlong := hloop.long
  have hlength : stops.length - 1 ≤ max 1 g.maxDepth :=
    List.length_dropLast ▸ (length_of_mem_cycles hg hr).2
  obtain ⟨a, b, rfl⟩ := List.length_eq_two.mp (by omega : stops.length = 2)
  obtain rfl : a = b := Option.some.inj hloop.closed
  exact ⟨a, hloop⟩

/-- No depth passes over an import of a file by itself. -/
theorem cycles_ne_nil_of_loop_pair (hg : g.WellFormed) (hloop : g.Loop [a, a]) :
    g.cycles ≠ [] := by
  refine (cycles_ne_nil_iff hg).mpr ⟨[a, a], hloop, fun b c hbc => ?_⟩
  have heq : [b, c] = [a, a] := hbc.eq_of_length rfl
  obtain ⟨rfl, hc⟩ := List.cons.inj heq
  obtain ⟨rfl, -⟩ := List.cons.inj hc
  exact self_not_mem_cuts hg

theorem cycles_ne_nil_of_loop (hg : g.WellFormed) (hdepth : g.files.length ≤ g.maxDepth)
    (hloop : g.Loop walk) : g.cycles ≠ [] := by
  refine (cycles_ne_nil_iff hg).mpr ⟨walk, hloop, fun a b _ => ?_⟩
  rw [cuts_eq_nil hg hdepth]
  exact List.not_mem_nil

section Depths

theorem ofEdits_depth (d d' : Nat) (edits : List Edit) :
    ofEdits d' edits = { ofEdits d edits with maxDepth := d' } := by
  rw [ofEdits_eq_ofHistory, ofEdits_eq_ofHistory]
  rfl

theorem loop_ofEdits (d d' : Nat) (edits : List Edit) :
    (ofEdits d' edits).Loop walk ↔ (ofEdits d edits).Loop walk := by
  rw [ofEdits_depth d d' edits, loop_iff, loop_iff]
  rfl

theorem leavesOutCuts_ofEdits (hle : d ≤ d') (hcuts : (ofEdits d edits).cuts = []) :
    (ofEdits d' edits).LeavesOutCuts (ofEdits d edits) where
  files := by
    rw [ofEdits_depth d d' edits]
    rfl
  successors := fun a => by
    rw [ofEdits_depth d d' edits, hcuts]
    exact (List.filter_eq_self.mpr fun b _ => decide_eq_true List.not_mem_nil).symm
  maxDepth := by rwa [maxDepth_ofEdits, maxDepth_ofEdits]

end Depths

/-- A greater depth hides the rings that a smaller one finds exactly if every loop has an import
that it passes over, and some loop has none that the smaller one does. It hides none if the smaller
depth passes over nothing, if that depth is one at the most, or if the greater one leaves room for
all files. -/
theorem greater_depth_hides_iff (d d' : Nat) (edits : List Edit) (hle : d ≤ d') :
    let g := ofEdits d edits
    let h := ofEdits d' edits
    (g.cycles ≠ [] ∧ h.cycles = [] ↔
      (∃ walk, g.Loop walk ∧ ∀ a b, [a, b] <:+: walk → (a, b) ∉ g.cuts) ∧
      ∀ walk, h.Loop walk → ∃ a b, [a, b] <:+: walk ∧ (a, b) ∈ h.cuts) ∧
    (g.cuts = [] → h.cycles = g.cycles) ∧
    (d ≤ 1 ∨ h.files.length ≤ d' → g.cycles ≠ [] → h.cycles ≠ []) := by
  intro g h
  have hg : g.WellFormed := wellFormed_ofEdits d edits
  have hh : h.WellFormed := wellFormed_ofEdits d' edits
  refine ⟨?_, fun hcuts => (leavesOutCuts_ofEdits hle hcuts).cycles hg hh, fun hroom hne => ?_⟩
  · have hnone : h.cycles = [] ↔
        ∀ walk, h.Loop walk → ∃ a b, [a, b] <:+: walk ∧ (a, b) ∈ h.cuts := by
      rw [← not_iff_not, ← ne_eq, cycles_ne_nil_iff hh]
      push Not
      rfl
    rw [cycles_ne_nil_iff hg, hnone]
  · rcases hroom with hone | hroom
    · have hmax : g.maxDepth ≤ 1 := (maxDepth_ofEdits d edits).trans_le hone
      obtain ⟨a, hloop⟩ := exists_loop_pair hg hmax hne
      exact cycles_ne_nil_of_loop_pair hh ((loop_ofEdits d d' edits).mpr hloop)
    · obtain ⟨walk, hwalk, -⟩ := (cycles_ne_nil_iff hg).mp hne
      refine cycles_ne_nil_of_loop hh ?_ ((loop_ofEdits d d' edits).mpr hwalk)
      rwa [maxDepth_ofEdits]

/-- Two files that import each other behind two files in a row. -/
def behind : List Edit :=
  [.file "a" [] [], .file "b" [] [], .file "c" [] [], .file "d" [] [], .statement "a" "b",
    .statement "b" "c", .statement "c" "d", .statement "d" "c"]

theorem cycles_behind :
    (ofEdits 2 behind).cycles ≠ [] ∧ (ofEdits 3 behind).cycles = [] := by
  have hfound : (ofEdits 2 behind).cycles = [⟨["c", "d", "c"]⟩] := by cbv
  have hhidden : (ofEdits 3 behind).cycles = [] := by cbv
  exact ⟨hfound ▸ List.cons_ne_nil _ _, hhidden⟩

theorem greater_depth_hides_iff_behind : 2 ≤ 3 ∧
    ((ofEdits 2 behind).cycles ≠ [] ∧ (ofEdits 3 behind).cycles = []) ∧
    ∀ walk, (ofEdits 3 behind).Loop walk →
      ∃ a b, [a, b] <:+: walk ∧ (a, b) ∈ (ofEdits 3 behind).cuts := by
  have hhides := cycles_behind
  exact ⟨by decide, hhides, ((greater_depth_hides_iff 2 3 behind (by decide)).1.mp hhides).2⟩

/-- The greater depth enters the third file from the second one, at the bottom, and leaves it before
it begins with the fourth. -/
theorem not_forall_greater_depth_finds :
    ¬∀ d d' edits, d ≤ d' → (ofEdits d edits).cycles ≠ [] → (ofEdits d' edits).cycles ≠ [] := by
  intro h
  exact h 2 3 behind (by decide) cycles_behind.1 cycles_behind.2

end Graph

end CodeAtlas.Dependency
