import CodeAtlas.Proofs.Search.Invariant

/-! Every ring that is found is a loop of imports which comes by no file twice. A ring is found when
an import leads back to a file that the search is in: it consists of the files from that one up to
the one on top. -/

namespace CodeAtlas.Dependency

/-- A walk along one or more imports between files that comes back to where it begins. -/
structure Graph.Loop (g : Graph) (stops : List String) : Prop where
  long : 2 ≤ stops.length
  imports : stops.IsChain g.FileImport
  closed : stops.head? = stops.getLast?

theorem Graph.loop_iff {g : Graph} {stops : List String} : g.Loop stops ↔
    2 ≤ stops.length ∧ stops.IsChain g.FileImport ∧ stops.head? = stops.getLast? :=
  ⟨fun h => ⟨h.long, h.imports, h.closed⟩, fun ⟨hl, hi, hc⟩ => ⟨hl, hi, hc⟩⟩

instance {g : Graph} {stops : List String} : Decidable (g.Loop stops) :=
  decidable_of_iff' _ Graph.loop_iff

theorem Graph.Loop.exists_mem {g : Graph} {stops : List String} (h : g.Loop stops) :
    ∃ file, file ∈ stops := by
  refine List.exists_mem_of_ne_nil _ fun hnil => ?_
  have hlong := h.long
  rw [hnil] at hlong
  exact absurd hlong (by decide)

theorem Graph.Loop.transGen {g : Graph} {stops : List String} {R : String → String → Prop}
    {file : String} (h : g.Loop stops) (hR : stops.IsChain R) (hfile : file ∈ stops) :
    Relation.TransGen R file file := by
  obtain ⟨hlong, -, hclosed⟩ := h
  match stops with
  | [] | [_] => exact absurd hlong (by simp)
  | a :: b :: rest =>
    rw [List.head?_cons, List.getLast?_eq_some_getLast (List.cons_ne_nil _ _)] at hclosed
    have hlast : (a :: b :: rest).getLast (List.cons_ne_nil _ _) = a :=
      (Option.some.inj hclosed).symm
    obtain ⟨hab, hrest⟩ := List.isChain_cons_cons.mp hR
    have haround : Relation.TransGen R a a := .head' hab
      (List.relationReflTransGen_of_exists_isChain_cons rest hrest (by simpa using hlast))
    obtain ⟨l₁, l₂, hsplit⟩ := List.append_of_mem hfile
    match l₁ with
    | [] =>
      obtain ⟨rfl, -⟩ := List.cons.inj hsplit
      exact haround
    | a' :: l₁ =>
      obtain ⟨rfl, -⟩ := List.cons.inj hsplit
      rw [hsplit] at hR
      obtain ⟨hto, hfrom⟩ := List.isChain_split.mp hR
      have hup : Relation.ReflTransGen R a file :=
        List.relationReflTransGen_of_exists_isChain_cons (l₁ ++ [file]) hto (by simp)
      have hdown : Relation.ReflTransGen R file a := by
        refine List.relationReflTransGen_of_exists_isChain_cons l₂ hfrom ?_
        rw [← hlast]
        simp only [hsplit, List.getLast_append_of_ne_nil _ (List.cons_ne_nil file l₂)]
      -- From the file to where the loop begins, once round, and on to the file.
      exact (haround.trans_right hdown).trans_left hup

namespace Search

variable {g : Graph} {s t : Search} {r : Ring} {file next : String} {upper lower : List String}

/-- Whether the next import that a search follows closes a ring. -/
def Closes (s : Search) (r : Ring) : Prop :=
  ∃ file next pending rest, s.stack = ⟨file, next :: pending⟩ :: rest ∧ next ∈ s.entered ∧
    r = s.ringTo next

theorem mem_chain : file ∈ s.chain ↔ file ∈ s.entered := List.mem_reverse

theorem mark_eq_entered_iff : s.mark file = .entered ↔ file ∉ s.unseen ∧ file ∉ s.done := by
  unfold mark
  split <;> rename_i hu
  · simp [hu]
  · split <;> simp_all

theorem Invariant.mem_entered_iff (h : s.Invariant g) (hg : g.WellFormed)
    (hfile : g.isFile file = true) : file ∈ s.entered ↔ file ∉ s.unseen ∧ file ∉ s.done := by
  have hmem := h.mem_files_iff.mp (hg.mem_files_iff.mpr hfile)
  constructor
  · intro he
    exact ⟨fun hu => h.not_mem_entered_of_unseen hg hu he, h.not_mem_done_of_entered hg he⟩
  · rintro ⟨hu, hd⟩
    exact (hmem.resolve_left hu).resolve_right hd

theorem ringTo_congr (h : s.entered = t.entered) : s.ringTo file = t.ringTo file := by
  have hchain : s.chain = t.chain := congrArg List.reverse h
  rw [ringTo, ringTo, hchain]

theorem ringTo_stops (h : s.entered = upper ++ file :: lower) (hlower : file ∉ lower) :
    (s.ringTo file).stops = (file :: (upper ++ [file])).reverse := by
  have hchain : s.chain = lower.reverse ++ file :: upper.reverse := by
    change s.entered.reverse = _
    rw [h, List.reverse_append, List.reverse_cons, List.append_assoc, List.singleton_append]
  have hidx : s.chain.idxOf? file = some lower.reverse.length := by
    rw [List.idxOf?_eq_some_iff, hchain]
    refine ⟨by simp, by simp, fun j hj => ?_⟩
    rw [List.getElem_append_left hj]
    exact fun heq => hlower (List.mem_reverse.mp (heq ▸ List.getElem_mem hj))
  rw [ringTo, hidx, Option.getD_some, hchain, List.drop_left]
  simp

theorem head?_append_cons (upper lower : List String) :
    (upper ++ [file]).head? = (upper ++ file :: lower).head? := by
  cases upper <;> rfl

theorem exists_ringTo_stops (hnodup : s.entered.Nodup) (hmem : file ∈ s.entered) :
    ∃ upper lower, s.entered = upper ++ file :: lower ∧
      (s.ringTo file).stops = (file :: (upper ++ [file])).reverse := by
  obtain ⟨upper, lower, hsplit⟩ := List.append_of_mem hmem
  have hlower : file ∉ lower := by
    rw [hsplit] at hnodup
    exact (List.nodup_cons.mp hnodup.of_append_right).1
  exact ⟨upper, lower, hsplit, ringTo_stops hsplit hlower⟩

/-- The import that closes a ring is the last one of it. -/
theorem suffix_ringTo_stops (hnodup : s.entered.Nodup) (hmem : next ∈ s.entered)
    (htop : s.entered.head? = some file) : [file, next] <:+ (s.ringTo next).stops := by
  obtain ⟨upper, lower, hsplit, hstops⟩ := exists_ringTo_stops hnodup hmem
  have hhead : (upper ++ [next]).head? = some file := by
    rw [head?_append_cons upper lower, ← hsplit, htop]
  obtain ⟨tail, htail⟩ := List.head?_eq_some_iff.mp hhead
  rw [hstops, htail, List.reverse_cons, List.reverse_cons, List.append_assoc]
  exact List.suffix_append _ _

theorem mem_ringTo_stops (hnodup : s.entered.Nodup) (hmem : next ∈ s.entered) :
    next ∈ (s.ringTo next).stops := by
  obtain ⟨upper, lower, -, hstops⟩ := exists_ringTo_stops hnodup hmem
  rw [hstops, List.mem_reverse]
  exact List.mem_cons_self

/-- Everything above a file is on the ring that an import of that file closes. -/
theorem subset_ringTo_stops (hnodup : s.entered.Nodup) (hsplit : s.entered = upper ++ lower)
    (hmem : next ∈ lower) : upper ⊆ (s.ringTo next).stops := by
  obtain ⟨l₁, l₂, rfl⟩ := List.append_of_mem hmem
  rw [← List.append_assoc] at hsplit
  have hnext : next ∉ l₂ := by
    rw [hsplit] at hnodup
    exact (List.nodup_cons.mp hnodup.of_append_right).1
  intro file hfile
  rw [ringTo_stops hsplit hnext, List.mem_reverse]
  exact List.mem_cons_of_mem _ (List.mem_append_left _ (List.mem_append_left _ hfile))

theorem Closes.stops (h : s.Closes r) (hinv : s.Invariant g) (hg : g.WellFormed) :
    ∃ next upper lower, s.entered = upper ++ next :: lower ∧
      r.stops = (next :: (upper ++ [next])).reverse ∧
      (next :: (upper ++ [next])).IsChain fun a b => g.FileImport b a := by
  obtain ⟨file, next, pending, rest, hs, hmem, rfl⟩ := h
  obtain ⟨upper, lower, hsplit, hstops⟩ := exists_ringTo_stops (hinv.nodup_entered hg) hmem
  refine ⟨next, upper, lower, hsplit, hstops, ?_⟩
  have hpath : (upper ++ [next]).IsChain fun a b => g.FileImport b a := by
    refine hinv.path.prefix ⟨lower, ?_⟩
    rw [hsplit, List.append_assoc, List.singleton_append]
  refine hpath.cons fun top htop => ?_
  rw [head?_append_cons upper lower, ← hsplit] at htop
  obtain ⟨unseen, done, stack, rings⟩ := s
  subst hs
  obtain rfl := Option.some.inj htop
  exact hinv.fileImport_top hg

theorem Closes.stops_subset (h : s.Closes r) (hinv : s.Invariant g) (hg : g.WellFormed) :
    r.stops ⊆ s.entered := by
  obtain ⟨next, upper, lower, hsplit, hstops, -⟩ := h.stops hinv hg
  intro file hfile
  rw [hstops, List.mem_reverse] at hfile
  rw [hsplit]
  rcases List.mem_cons.mp hfile with rfl | hfile
  · exact List.mem_append_right _ List.mem_cons_self
  · exact (List.prefix_append_right_inj upper |>.mpr ⟨lower, rfl⟩).subset hfile

/-- The files of a ring are those from the one that is met again up to the one on top. -/
theorem Closes.files (h : s.Closes r) (hinv : s.Invariant g) (hg : g.WellFormed) :
    ∃ upper lower, s.entered = upper ++ lower ∧ r.files = upper.reverse := by
  obtain ⟨next, upper, lower, hsplit, hstops, -⟩ := h.stops hinv hg
  refine ⟨upper ++ [next], lower, by rw [hsplit, List.append_assoc, List.singleton_append], ?_⟩
  rw [Ring.files, hstops, List.dropLast_reverse, List.tail_cons]

theorem Closes.loop (h : s.Closes r) (hinv : s.Invariant g) (hg : g.WellFormed) :
    g.Loop r.stops := by
  obtain ⟨next, upper, lower, hsplit, hstops, hpath⟩ := h.stops hinv hg
  rw [hstops]
  refine ⟨by simp, List.isChain_reverse.mpr hpath, ?_⟩
  rw [List.head?_reverse, List.getLast?_reverse, List.head?_cons, ← List.cons_append,
    List.getLast?_concat]

end Search

namespace Graph

variable {g : Graph} {r : Ring}

theorem exists_closes_of_mem_cycles (hg : g.WellFormed) (h : r ∈ g.cycles) :
    ∃ s, g.Visits s ∧ s.Closes r := by
  refine visits_induction (P := fun t => ∀ r ∈ t.rings, ∃ s, g.Visits s ∧ s.Closes r)
    (fun _ hr => absurd hr List.not_mem_nil) (fun {s t} hs hm ih => ?_) (visits_finish g) r
    (mem_cycles.mp h)
  cases hm with
  | @close file next pending unseen done rest rings hu hd =>
    have hvisits := visits_of_moves hs (List.cons_ne_nil _ _)
    have hinv := hvisits.invariant hg
    intro r hr
    rcases List.mem_cons.mp hr with rfl | hr
    · refine ⟨_, hvisits, file, next, pending, rest, rfl, ?_, Search.ringTo_congr rfl⟩
      exact (hinv.mem_entered_iff hg (hinv.fileImport_top hg).2.1).mpr ⟨hu, hd⟩
    · exact ih r hr
  | start | leave | descend | skip | cut => exact ih

theorem length_of_mem_cycles (hg : g.WellFormed) (h : r ∈ g.cycles) :
    1 ≤ r.length ∧ r.length ≤ max 1 g.maxDepth := by
  obtain ⟨s, hs, hr⟩ := exists_closes_of_mem_cycles hg h
  have hinv := hs.invariant hg
  obtain ⟨next, upper, lower, hsplit, hstops, -⟩ := hr.stops hinv hg
  have hlength : r.length = upper.length + 1 := by
    rw [Ring.length, Ring.files, hstops]
    simp
  have hheight : s.entered.length ≤ max 1 g.maxDepth := by
    rw [Search.entered, List.length_map]
    exact hinv.height
  rw [hsplit, List.length_append, List.length_cons] at hheight
  omega

theorem files_of_mem_cycles (hg : g.WellFormed) (h : r ∈ g.cycles) :
    r.files.Nodup ∧ ∀ file ∈ r.files, g.isFile file = true := by
  obtain ⟨s, hs, hr⟩ := exists_closes_of_mem_cycles hg h
  have hinv := hs.invariant hg
  obtain ⟨upper, lower, hsplit, hfiles⟩ := hr.files hinv hg
  rw [hfiles]
  refine ⟨List.nodup_reverse.mpr ?_, fun file hfile => hinv.isFile_entered hg ?_⟩
  · exact (hsplit ▸ hinv.nodup_entered hg).of_append_left
  · rw [hsplit]
    exact List.mem_append_left _ (List.mem_reverse.mp hfile)

theorem loop_of_mem_cycles (hg : g.WellFormed) (h : r ∈ g.cycles) : g.Loop r.stops := by
  obtain ⟨s, hs, hr⟩ := exists_closes_of_mem_cycles hg h
  exact hr.loop (hs.invariant hg) hg

/-- Every ring is a loop of imports between pairwise different files, no more of them than the
greatest depth, and whenever an import leads to a file that is neither unseen nor left, that file is
found on the way that the search has come. -/
theorem cycles_simple_loops (maxDepth : Nat) (edits : List Edit) :
    let g := ofEdits maxDepth edits
    (∀ r ∈ g.cycles, g.Loop r.stops ∧ r.files.Nodup ∧ (∀ file ∈ r.files, g.isFile file = true) ∧
      1 ≤ r.length ∧ r.length ≤ max 1 maxDepth) ∧
    ∀ s, g.Visits s →
      (∀ file, g.isFile file = true → (s.mark file = .entered ↔ file ∈ s.chain)) ∧
      ∀ f ∈ s.stack, ∀ next ∈ f.pending,
        s.mark next = .entered → (s.chain.idxOf? next).isSome = true := by
  intro g
  have hg : g.WellFormed := wellFormed_ofEdits maxDepth edits
  refine ⟨fun r hr => ?_, fun s hs => ?_⟩
  · have hlength := length_of_mem_cycles hg hr
    rw [maxDepth_ofEdits] at hlength
    exact ⟨loop_of_mem_cycles hg hr, (files_of_mem_cycles hg hr).1, (files_of_mem_cycles hg hr).2,
      hlength⟩
  · have hinv := hs.invariant hg
    have hmark (file : String) (hfile : g.isFile file = true) :
        s.mark file = .entered ↔ file ∈ s.chain := by
      rw [Search.mem_chain, Search.mark_eq_entered_iff, hinv.mem_entered_iff hg hfile]
    refine ⟨hmark, fun f hf next hnext hentered => ?_⟩
    have hfile := (mem_successors.mp ((hinv.pending f hf).subset hnext)).2
    exact List.isSome_idxOf?.mpr ((hmark next hfile).mp hentered)

theorem cycles_simple_loops_pair :
    let g := ofEdits 2 [.file "a" [] [], .file "b" [] [], .statement "a" "b", .statement "b" "a"]
    (⟨["a", "b", "a"]⟩ : Ring) ∈ g.cycles ∧ g.Loop ["a", "b", "a"] := by
  intro g
  have hcycles : g.cycles = [⟨["a", "b", "a"]⟩] := by cbv
  have hmem : (⟨["a", "b", "a"]⟩ : Ring) ∈ g.cycles := hcycles ▸ List.mem_singleton_self _
  exact ⟨hmem, ((cycles_simple_loops 2 _).1 _ hmem).1⟩

end Graph

end CodeAtlas.Dependency
