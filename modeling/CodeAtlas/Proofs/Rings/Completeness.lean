import CodeAtlas.Proofs.Dependency.Built
import CodeAtlas.Proofs.Dependency.Peeling
import CodeAtlas.Proofs.Rings.Loops
import CodeAtlas.Proofs.Search.End

/-! Where no file is too far down, no loop of imports is missed: one of them closes a ring. One that
closes none leads to a file that the search leaves earlier, so that without those that close rings
there is no way back. Whether there is a ring among files is then the same question as whether there
is a ring at all, if packages import nothing. -/

namespace CodeAtlas.Dependency

open Relation

/-- Whether an import is the last one of a ring that is found. -/
def Graph.Closing (g : Graph) (a b : String) : Prop := ∃ r ∈ g.cycles, [a, b] <:+ r.stops

namespace Search

variable {g : Graph} {s t : Search} {a b file next : String} {unseen done pending : List String}
  {lower : List Frame} {rings : List Ring}

def Closed (s : Search) (a b : String) : Prop := ∃ r ∈ s.rings, [a, b] <:+ r.stops

theorem Closed.mono (h : s.Closed a b) (hrings : s.rings ⊆ t.rings) : t.Closed a b := by
  obtain ⟨r, hr, hab⟩ := h
  exact ⟨r, hrings hr, hab⟩

/-- Where the imports of a file lead that the search has followed: every one of them has closed a
ring, or leads to a file that has been left, or to one that is above. -/
def Followed (g : Graph) (s : Search) (f : Frame) : Prop := ∀ b ∈ g.successors f.file,
  b ∈ f.pending ∨ s.Closed f.file b ∨ b ∈ s.done ∨ [b, f.file].Sublist s.entered

theorem Followed.mono {f : Frame} (h : Followed g s f) (hrings : s.rings ⊆ t.rings)
    (hdone : s.done ⊆ t.done) (hentered : s.entered.Sublist t.entered) : Followed g t f := by
  intro b hb
  rcases h b hb with hb | hb | hb | hb
  · exact .inl hb
  · exact .inr (.inl (hb.mono hrings))
  · exact .inr (.inr (.inl (hdone hb)))
  · exact .inr (.inr (.inr (hb.trans hentered)))

theorem Followed.tail (h : Followed g s ⟨file, next :: pending⟩)
    (hnext : s.Closed file next ∨ next ∈ s.done ∨ [next, file].Sublist s.entered) :
    Followed g s ⟨file, pending⟩ := by
  intro b hb
  rcases h b hb with hb | hb
  · rcases List.mem_cons.mp hb with rfl | hb
    · exact .inr hnext
    · exact .inl hb
  · exact .inr hb

/-- An import of a file that has been left has closed a ring or leads to a file left earlier. -/
structure Ordered (g : Graph) (s : Search) : Prop where
  left : ∀ a ∈ s.done, ∀ b ∈ g.successors a, s.Closed a b ∨ [a, b].Sublist s.done
  followed : ∀ f ∈ s.stack, Followed g s f

theorem Ordered.unstarted (g : Graph) : Ordered g g.unstarted :=
  ⟨fun _ ha => absurd ha List.not_mem_nil, fun _ hf => absurd hf List.not_mem_nil⟩

theorem Ordered.leave (h : Ordered g ⟨unseen, done, ⟨file, []⟩ :: lower, rings⟩)
    (hinv : Invariant g ⟨unseen, done, ⟨file, []⟩ :: lower, rings⟩) (hg : g.WellFormed) :
    Ordered g ⟨unseen, file :: done, lower, rings⟩ := by
  have hfile : file ∉ lower.map Frame.file := (List.nodup_cons.mp (hinv.nodup_entered hg)).1
  refine ⟨fun a ha b hb => ?_, fun f hf b hb => ?_⟩
  · rcases List.mem_cons.mp ha with rfl | ha
    · rcases h.followed _ List.mem_cons_self b hb with hb | hb | hb | hb
      · exact absurd hb List.not_mem_nil
      · exact .inl hb
      · exact .inr (.cons_cons a (List.singleton_sublist.mpr hb))
      · -- Nothing is above the file on top.
        exact absurd (List.singleton_sublist.mp hb.tail) hfile
    · rcases h.left a ha b hb with hab | hab
      · exact .inl hab
      · exact .inr (hab.cons file)
  · rcases h.followed f (List.mem_cons_of_mem _ hf) b hb with hb | hb | hb | hb
    · exact .inl hb
    · exact .inr (.inl hb)
    · exact .inr (.inr (.inl (List.mem_cons_of_mem _ hb)))
    · rcases List.sublist_cons_iff.mp hb with hb | ⟨l, hl, -⟩
      · exact .inr (.inr (.inr hb))
      · obtain rfl := (List.cons.inj hl).1
        exact .inr (.inr (.inl List.mem_cons_self))

/-- No file is too far down if there are no more files than the greatest depth. -/
theorem Invariant.height_lt (h : Invariant g s) (hdepth : g.files.length ≤ g.maxDepth)
    (hu : next ∈ s.unseen) : s.stack.length < g.maxDepth := by
  have hlength := h.partition.length_eq
  have hpos := List.length_pos_of_mem hu
  simp only [List.length_append, entered, List.length_map] at hlength
  omega

theorem Move.ordered (hm : Move g s t) (hg : g.WellFormed)
    (hdepth : g.files.length ≤ g.maxDepth) (hinv : Invariant g s) (h : Ordered g s) :
    Ordered g t := by
  cases hm with
  | start =>
    refine ⟨h.left, fun f hf b hb => ?_⟩
    rw [List.mem_singleton.mp hf] at hb ⊢
    exact .inl hb
  | leave => exact h.leave hinv hg
  | @close file next pending unseen done lower rings hu hd =>
    have hrings := List.subset_cons_self
      (ringTo ⟨unseen, done, ⟨file, pending⟩ :: lower, rings⟩ next) rings
    have hmem := (hinv.mem_entered_iff hg (hinv.fileImport_top hg).2.1).mpr ⟨hu, hd⟩
    refine ⟨fun a ha b hb => ?_, fun f hf => ?_⟩
    · exact (h.left a ha b hb).imp_left fun hab => hab.mono hrings
    · rcases List.mem_cons.mp hf with rfl | hf
      · refine Followed.tail ((h.followed _ List.mem_cons_self).mono hrings (fun _ => id)
          (List.Sublist.refl _)) (.inl ⟨_, List.mem_cons_self, ?_⟩)
        exact suffix_ringTo_stops (hinv.nodup_entered hg) hmem rfl
      · exact (h.followed f (List.mem_cons_of_mem _ hf)).mono hrings (fun _ => id)
          (List.Sublist.refl _)
  | @descend file next pending unseen done lower rings hu hlen =>
    have habove (f : Frame)
        (hf : Followed g ⟨unseen, done, ⟨file, next :: pending⟩ :: lower, rings⟩ f) :
        Followed g (enter g next ⟨unseen, done, ⟨file, pending⟩ :: lower, rings⟩) f :=
      hf.mono (fun _ => id) (fun _ => id) (List.sublist_cons_self _ _)
    refine ⟨h.left, fun f hf => ?_⟩
    rcases List.mem_cons.mp hf with rfl | hf
    · exact fun b hb => .inl hb
    · rcases List.mem_cons.mp hf with rfl | hf
      · refine (habove _ (h.followed _ List.mem_cons_self)).tail (.inr (.inr ?_))
        exact .cons_cons next (.cons_cons file (List.nil_sublist _))
      · exact habove f (h.followed f (List.mem_cons_of_mem _ hf))
  | skip hu hd =>
    refine ⟨h.left, fun f hf => ?_⟩
    rcases List.mem_cons.mp hf with rfl | hf
    · exact Followed.tail (h.followed _ List.mem_cons_self) (.inr (.inl hd))
    · exact h.followed f (List.mem_cons_of_mem _ hf)
  | cut hu hlen => exact absurd (hinv.height_lt hdepth hu) (Nat.not_lt.mpr hlen)

end Search

namespace Graph

variable {g : Graph} {a b file : String} {walk : List String}

theorem ordered_finish (hg : g.WellFormed) (hdepth : g.files.length ≤ g.maxDepth) :
    g.finish.Ordered g :=
  (visits_finish g).induction hg (.unstarted g) fun hm hinv h => hm.ordered hg hdepth hinv h

theorem closing_of_closed (h : g.finish.Closed a b) : g.Closing a b := by
  obtain ⟨r, hr, hab⟩ := h
  exact ⟨r, mem_cycles.mpr hr, hab⟩

/-- How many files the search leaves after a file. -/
def leftAfter (g : Graph) (file : String) : Nat := g.finish.done.idxOf file

theorem idxOf_lt_of_sublist {l : List String} (hl : l.Nodup) (h : [a, b].Sublist l) :
    l.idxOf a < l.idxOf b := by
  induction l with
  | nil => exact absurd h (by simp)
  | cons c l ih =>
    obtain ⟨hc, hl⟩ := List.nodup_cons.mp hl
    rcases List.sublist_cons_iff.mp h with h | ⟨m, hm, h⟩
    · have ha : a ∈ l := h.subset List.mem_cons_self
      have hb : b ∈ l := h.subset (List.mem_cons_of_mem _ List.mem_cons_self)
      rw [List.idxOf_cons_ne _ (ne_of_mem_of_not_mem ha hc).symm,
        List.idxOf_cons_ne _ (ne_of_mem_of_not_mem hb hc).symm]
      exact Nat.succ_lt_succ (ih hl h)
    · obtain ⟨rfl, rfl⟩ := List.cons.inj hm
      have hb : b ∈ l := List.singleton_sublist.mp h
      rw [List.idxOf_cons_self, List.idxOf_cons_ne _ (ne_of_mem_of_not_mem hb hc).symm]
      exact Nat.succ_pos _

/-- An import that closes no ring leads to a file that is left earlier. -/
theorem leftAfter_lt (hg : g.WellFormed) (hdepth : g.files.length ≤ g.maxDepth)
    (h : g.FileImport a b) (hab : ¬g.Closing a b) : g.leftAfter a < g.leftAfter b := by
  have hdone := finish_done hg
  have hfile : a ∈ g.finish.done := hdone.mem_iff.mpr (hg.mem_files_iff.mpr h.1)
  have hsucc : b ∈ g.successors a := (fileImport_iff.mp h).2
  have hleft := (ordered_finish hg hdepth).left a hfile b hsucc
  exact idxOf_lt_of_sublist (hdone.nodup_iff.mpr hg.nodup_files)
    (hleft.resolve_left fun hclosed => hab (closing_of_closed hclosed))

theorem leftAfter_lt_of_transGen (hg : g.WellFormed) (hdepth : g.files.length ≤ g.maxDepth)
    (h : TransGen (fun a b => g.FileImport a b ∧ ¬g.Closing a b) a b) :
    g.leftAfter a < g.leftAfter b := by
  induction h with
  | single hab => exact leftAfter_lt hg hdepth hab.1 hab.2
  | tail _ hbc ih => exact ih.trans (leftAfter_lt hg hdepth hbc.1 hbc.2)

theorem exists_closing_of_loop (hg : g.WellFormed) (hdepth : g.files.length ≤ g.maxDepth)
    (h : g.Loop walk) : ∃ a b, [a, b] <:+: walk ∧ g.Closing a b := by
  by_contra hnone
  have hchain : walk.IsChain fun a b => g.FileImport a b ∧ ¬g.Closing a b := by
    refine List.isChain_iff_forall_rel_of_append_cons_cons.mpr fun a b l₁ l₂ hl => ?_
    refine ⟨List.isChain_iff_forall_rel_of_append_cons_cons.mp h.imports hl, fun hab => ?_⟩
    exact hnone ⟨a, b, ⟨l₁, l₂, by rw [hl, List.append_assoc]; rfl⟩, hab⟩
  -- So every import of the loop leads to a file left earlier, all the way back to where it began.
  obtain ⟨file, hfile⟩ := h.exists_mem
  have hlt := leftAfter_lt_of_transGen hg hdepth (h.transGen hchain hfile)
  exact absurd hlt (Nat.lt_irrefl _)

theorem fileImport_transGen (hsink : ∀ a b, g.Imports a b → g.isFile a = true)
    (h : TransGen g.Imports a b) (hb : g.isFile b = true) : TransGen g.FileImport a b := by
  induction h using TransGen.head_induction_on with
  | single hab => exact .single ⟨hsink _ _ hab, hb, hab⟩
  | head hac hcb ih =>
    obtain ⟨d, hcd, -⟩ := TransGen.head'_iff.mp hcb
    exact .head ⟨hsink _ _ hac, hsink _ _ hcd, hac⟩ ih

theorem hasCycles_iff_cycles_ne_nil (hg : g.WellFormed) (hdepth : g.files.length ≤ g.maxDepth)
    (hsink : ∀ a b, g.Imports a b → g.isFile a = true) :
    g.cycles ≠ [] ↔ g.hasCycles = true := by
  rw [hg.hasCycles_iff]
  constructor
  · intro hne
    obtain ⟨r, hr⟩ := List.exists_mem_of_ne_nil _ hne
    have hloop := loop_of_mem_cycles hg hr
    obtain ⟨file, hfile⟩ := hloop.exists_mem
    have hring := hloop.transGen hloop.imports hfile
    exact ⟨file, TransGen.mono (fun _ _ hab => hab.2.2) _ _ hring⟩
  · rintro ⟨a, ha⟩ hnil
    obtain ⟨b, hab, -⟩ := TransGen.head'_iff.mp ha
    have hloop := fileImport_transGen hsink ha (hsink a b hab)
    have hopen (a b : String) : ¬g.Closing a b := by
      rintro ⟨r, hr, -⟩
      exact absurd (hnil ▸ hr) List.not_mem_nil
    have hlt := leftAfter_lt_of_transGen hg hdepth
      (TransGen.mono (fun a b hab => ⟨hab, hopen a b⟩) _ _ hloop)
    exact Nat.lt_irrefl _ hlt

/-- No loop of imports is missed where no file can be too far down: one of its imports closes a
ring, and there are no loops without those that do. There are rings exactly if there is one at all,
if packages import nothing, as in the graph of a set of files. -/
theorem loops_meet_closing_imports (maxDepth : Nat) (edits : List Edit)
    (hdepth : (ofEdits maxDepth edits).files.length ≤ maxDepth) :
    let g := ofEdits maxDepth edits
    (∀ walk, g.Loop walk → ∃ a b, [a, b] <:+: walk ∧ g.Closing a b) ∧
    (∀ file, ¬TransGen (fun a b => g.FileImport a b ∧ ¬g.Closing a b) file file) ∧
    ((∀ a b, g.Imports a b → g.isFile a = true) → (g.cycles ≠ [] ↔ g.hasCycles = true)) ∧
    ∀ files s a b, (build files s).Imports a b → (build files s).isFile a = true := by
  intro g
  have hg : g.WellFormed := wellFormed_ofEdits maxDepth edits
  have hdepth' : g.files.length ≤ g.maxDepth := by
    rw [maxDepth_ofEdits]
    exact hdepth
  refine ⟨fun walk h => exists_closing_of_loop hg hdepth' h, fun file h => ?_,
    hasCycles_iff_cycles_ne_nil hg hdepth', fun files s a b => isFile_of_imports_build⟩
  exact Nat.lt_irrefl _ (leftAfter_lt_of_transGen hg hdepth' h)

/-- Two files that import each other, and a third one on a longer way from the one to the other. -/
def detour : List Edit :=
  [.file "a" [] [], .file "b" [] [], .file "c" [] [], .statement "a" "b", .statement "b" "a",
    .statement "a" "c", .statement "c" "b"]

theorem loops_meet_closing_imports_detour :
    (ofEdits 3 detour).files.length ≤ 3 ∧ (ofEdits 3 detour).Loop ["c", "b", "a", "c"] ∧
      ∃ a b, [a, b] <:+: ["c", "b", "a", "c"] ∧ (ofEdits 3 detour).Closing a b := by
  have hdepth : (ofEdits 3 detour).files.length ≤ 3 := by cbv
  have hloop : (ofEdits 3 detour).Loop ["c", "b", "a", "c"] := by decide
  exact ⟨hdepth, hloop, (loops_meet_closing_imports 3 detour hdepth).1 _ hloop⟩

end Graph

end CodeAtlas.Dependency
