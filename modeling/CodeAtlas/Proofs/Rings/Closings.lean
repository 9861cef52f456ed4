import CodeAtlas.Proofs.Rings.Loops
import CodeAtlas.Proofs.Search.Times

/-! The imports that close rings. A ring is found when the import that closes it is taken up, and
every import is taken up once, so no two rings are closed by one import, and there are no more rings
than imports between files. -/

namespace CodeAtlas

/-- The import that closes a ring: its last two stops. -/
def Ring.closing (r : Ring) : List String := r.stops.drop (r.stops.length - 2)

theorem Ring.closing_eq_of_suffix {r : Ring} {a b : String} (h : [a, b] <:+ r.stops) :
    r.closing = [a, b] := (List.suffix_iff_eq_drop.mp h).symm

namespace Dependency

namespace Search

variable {g : Graph} {s t : Search} {file : String}

/-- Whether every ring was closed by an import that has been taken up, each by another one. -/
structure Apart (s : Search) : Prop where
  nodup : (s.rings.map Ring.closing).Nodup
  passed : ∀ r ∈ s.rings, ∃ a b, r.closing = [a, b] ∧ s.Passed a b

theorem Apart.keep (h : s.Apart) (hm : Move g s t) (hrings : t.rings = s.rings) : t.Apart where
  nodup := hrings ▸ h.nodup
  passed := fun r hr => by
    obtain ⟨a, b, hclosing, hpassed⟩ := h.passed r (hrings ▸ hr)
    exact ⟨a, b, hclosing, hpassed.move hm⟩

theorem Apart.close {next : String} {pending unseen done : List String} {rest : List Frame}
    {rings : List Ring} (h : Apart ⟨unseen, done, ⟨file, next :: pending⟩ :: rest, rings⟩)
    (hinv : Invariant g ⟨unseen, done, ⟨file, next :: pending⟩ :: rest, rings⟩)
    (hg : g.WellFormed) (hu : next ∉ unseen) (hd : next ∉ done) :
    Apart ⟨unseen, done, ⟨file, pending⟩ :: rest,
      ringTo ⟨unseen, done, ⟨file, pending⟩ :: rest, rings⟩ next :: rings⟩ := by
  have hm : Move g ⟨unseen, done, ⟨file, next :: pending⟩ :: rest, rings⟩
      ⟨unseen, done, ⟨file, pending⟩ :: rest,
        ringTo ⟨unseen, done, ⟨file, pending⟩ :: rest, rings⟩ next :: rings⟩ := .close hu hd
  have hfollows : Follows ⟨unseen, done, ⟨file, next :: pending⟩ :: rest, rings⟩ file next :=
    ⟨pending, rest, rfl⟩
  have hclosing : (ringTo ⟨unseen, done, ⟨file, pending⟩ :: rest, rings⟩ next).closing =
      [file, next] := by
    have hentered := (hinv.mem_entered_iff hg (hinv.fileImport_top hg).2.1).mpr ⟨hu, hd⟩
    apply Ring.closing_eq_of_suffix
    exact suffix_ringTo_stops (hinv.nodup_entered hg) hentered rfl
  constructor
  · refine List.nodup_cons.mpr ⟨fun hmem => ?_, h.nodup⟩
    obtain ⟨r, hr, hsame⟩ := List.mem_map.mp hmem
    obtain ⟨a, b, hab, hpassed⟩ := h.passed r hr
    rw [hab, hclosing] at hsame
    -- The import that is taken up now has not been taken up before.
    obtain ⟨rfl, hb⟩ := List.cons.inj hsame
    obtain ⟨rfl, -⟩ := List.cons.inj hb
    exact hpassed.not_follows hfollows
  · intro r hr
    rcases List.mem_cons.mp hr with rfl | hr
    · exact ⟨file, next, hclosing, hfollows.passed hm hg hinv⟩
    · obtain ⟨a, b, hab, hpassed⟩ := h.passed r hr
      exact ⟨a, b, hab, hpassed.move hm⟩

theorem Move.apart (hm : Move g s t) (hg : g.WellFormed) (hinv : s.Invariant g) (h : s.Apart) :
    t.Apart := by
  have hkeep (hrings : t.rings = s.rings) : t.Apart := h.keep hm hrings
  cases hm with
  | close hu hd => exact h.close hinv hg hu hd
  | start | leave | descend | skip | cut => exact hkeep rfl

end Search

namespace Graph

variable {g : Graph} {r : Ring}

theorem Visits.apart {s : Search} (hs : g.Visits s) (hg : g.WellFormed) : s.Apart :=
  hs.induction hg ⟨.nil, fun _ hr => absurd hr List.not_mem_nil⟩ fun hm hinv h => hm.apart hg hinv h

theorem nodup_closing_cycles (hg : g.WellFormed) : (g.cycles.map Ring.closing).Nodup := by
  rw [cycles, List.map_reverse, List.nodup_reverse]
  exact ((visits_finish g).apart hg).nodup

theorem closing_of_mem_cycles (hg : g.WellFormed) (hr : r ∈ g.cycles) :
    ∃ a b, r.closing = [a, b] ∧ g.FileImport a b := by
  obtain ⟨a, b, hclosing, -⟩ := ((visits_finish g).apart hg).passed r (mem_cycles.mp hr)
  have hloop := loop_of_mem_cycles hg hr
  have hchain : [a, b].IsChain g.FileImport := by
    rw [← hclosing]
    exact List.IsChain.suffix hloop.imports (List.drop_suffix _ _)
  exact ⟨a, b, hclosing, List.isChain_pair.mp hchain⟩

theorem length_cycles_le (hg : g.WellFormed) : g.cycles.length ≤ g.fileEdges.length := by
  have hsubset : g.cycles.map Ring.closing ⊆
      g.fileEdges.map fun e => [e.source, e.target] := by
    intro closing hclosing
    obtain ⟨r, hr, rfl⟩ := List.mem_map.mp hclosing
    obtain ⟨a, b, hab, himport⟩ := closing_of_mem_cycles hg hr
    obtain ⟨e, he, hends⟩ := List.mem_map.mp (mem_ends_fileEdges.mpr himport)
    obtain ⟨rfl, rfl⟩ := Prod.mk.inj hends
    exact List.mem_map.mpr ⟨e, he, hab.symm⟩
  have hsubperm := List.subperm_of_subset (nodup_closing_cycles hg) hsubset
  have hlength := hsubperm.length_le
  rwa [List.length_map, List.length_map] at hlength

/-- The search ends after as many steps as there are files and imports between files. It enters
every file at one time and takes up every import between files at one time, whatever the greatest
depth is, so that every ring is closed by another import. -/
theorem search_once (maxDepth : Nat) (edits : List Edit) :
    let g := ofEdits maxDepth edits
    (∀ n, (g.start.run g n).stack = [] ↔ g.files.length + g.fileEdges.length ≤ n) ∧
    g.finish.done.Perm g.files ∧
    ((∀ file, g.isFile file = true → ∃! n, (g.start.run g n).Entering g file) ∧
      ∀ n file, (g.start.run g n).Entering g file → g.isFile file = true) ∧
    ((∀ a b, g.FileImport a b → ∃! n, (g.start.run g n).Follows a b) ∧
      ∀ n a b, (g.start.run g n).Follows a b → g.FileImport a b) ∧
    (∀ r ∈ g.cycles, ∃ a b, r.closing = [a, b] ∧ g.FileImport a b) ∧
    (g.cycles.map Ring.closing).Nodup ∧ g.cycles.Nodup ∧
    g.cycles.length ≤ g.fileEdges.length := by
  intro g
  have hg : g.WellFormed := wellFormed_ofEdits maxDepth edits
  have hvisits (n : Nat) : g.Visits (g.start.run g n) := ⟨n, rfl⟩
  have hclosings := nodup_closing_cycles hg
  refine ⟨fun n => ?_, finish_done hg, ⟨?_, ?_⟩, ⟨?_, ?_⟩, ?_, hclosings, ?_, length_cycles_le hg⟩
  · rw [stack_run_eq_nil_iff hg, work_eq hg]
  · exact fun file hfile => existsUnique_entering hg hfile
  · exact fun n file hentering => (hvisits n).isFile_of_entering hg hentering
  · exact fun a b hab => existsUnique_follows hg hab
  · exact fun n a b hfollows => (hvisits n).fileImport_of_follows hg hfollows
  · exact fun r hr => closing_of_mem_cycles hg hr
  · exact hclosings.of_map

/-- Two files that import each other, and behind them a third one that also imports itself. -/
def pairAndLast : List Edit :=
  [.file "a" [] [], .file "b" [] [], .file "c" [] [], .statement "a" "b", .statement "b" "a",
    .statement "b" "c", .statement "c" "b", .statement "c" "c"]

theorem cycles_pairAndLast :
    (ofEdits 2 pairAndLast).cycles = [⟨["a", "b", "a"]⟩, ⟨["c", "c"]⟩] := by cbv

/-- The third file is too far down when its import is taken up, and entered later. -/
theorem search_once_pairAndLast :
    ((ofEdits 2 pairAndLast).isFile "c" = true ∧
      ∃! n, ((ofEdits 2 pairAndLast).start.run (ofEdits 2 pairAndLast) n).Entering
        (ofEdits 2 pairAndLast) "c") ∧
    ((ofEdits 2 pairAndLast).FileImport "b" "c" ∧
      ∃! n, ((ofEdits 2 pairAndLast).start.run (ofEdits 2 pairAndLast) n).Follows "b" "c") ∧
    (⟨["c", "c"]⟩ : Ring) ∈ (ofEdits 2 pairAndLast).cycles ∧
      ∃ a b, Ring.closing ⟨["c", "c"]⟩ = [a, b] ∧ (ofEdits 2 pairAndLast).FileImport a b := by
  have hfile : (ofEdits 2 pairAndLast).isFile "c" = true := by cbv
  have himport : (ofEdits 2 pairAndLast).FileImport "b" "c" := by decide
  have hring : (⟨["c", "c"]⟩ : Ring) ∈ (ofEdits 2 pairAndLast).cycles := by
    rw [cycles_pairAndLast]
    exact List.mem_cons_of_mem _ List.mem_cons_self
  have honce := search_once 2 pairAndLast
  exact ⟨⟨hfile, honce.2.2.1.1 "c" hfile⟩, ⟨himport, honce.2.2.2.1.1 "b" "c" himport⟩, hring,
    honce.2.2.2.2.1 _ hring⟩

end Graph

end Dependency

end CodeAtlas
