import CodeAtlas.Proofs.Dependency.Answers
import CodeAtlas.Proofs.Session.Coherence
import Mathlib.Data.List.Dedup

/-! Files that are asked for together. Each of them ends up in the report or among the skipped
ones, and in the report once; but among the skipped ones it stands as often as it was asked for in
vain, and it may still come to be in the report under another spelling. -/

namespace CodeAtlas

theorem FileAnalysis.file_of (c : Config) (file text : String) :
    (FileAnalysis.of c file text).file = file := by
  rw [FileAnalysis.of]
  split <;> rfl

namespace Session

variable {c : Config} {s t : Session} {source : Source} {path key : String}
  {past : List Event} {paths : List String}

theorem find?_ensure (s : Session) (source : Source) (path key : String) :
    (s.ensure source path).1.find? key = (s.find? key).or
      (if FilePath.key path = key then
        (source.read path).map fun text => ⟨key, text, .of s.config key text⟩ else none) := by
  rcases ensure_cases s source path with
    ⟨f, hfind, heq⟩ | ⟨hfind, hread, heq⟩ | ⟨text, hfind, hread, heq⟩ <;> rw [heq]
  · by_cases hkey : FilePath.key path = key
    · rw [← hkey, hfind, Option.some_or]
    · rw [if_neg hkey, Option.or_none]
  · rw [hread, Option.map_none, ite_self, Option.or_none]
    rfl
  · have habsent : ∀ f ∈ s.kept, f.key ≠ FilePath.key path := by simpa [find?] using hfind
    let f : KeptFile := ⟨FilePath.key path, text, .of s.config (FilePath.key path) text⟩
    have hkeep : (keep f s.kept).find? (·.key == key) =
        if FilePath.key path = key then some f else s.find? key := find?_keep habsent
    rw [find?, hkeep, hread, Option.map_some]
    by_cases hkey : FilePath.key path = key
    · rw [if_pos hkey, if_pos hkey, ← hkey, hfind, Option.none_or]
    · rw [if_neg hkey, if_neg hkey, Option.or_none]

theorem unreadable_iff : (s.ensure source path).2 = .unreadable ↔
    s.find? (FilePath.key path) = none ∧ source.read path = none := by
  rcases ensure_cases s source path with
    ⟨f, hfind, heq⟩ | ⟨hfind, hread, heq⟩ | ⟨text, hfind, hread, heq⟩
  · simp [heq, hfind]
  · simp [heq, hfind, hread]
  · simp [heq, hread]

theorem find?_ensure_eq_none_iff : (s.ensure source path).1.find? (FilePath.key path) = none ↔
    (s.ensure source path).2 = .unreadable := by
  rw [find?_ensure, if_pos rfl, Option.or_eq_none_iff, Option.map_eq_none_iff, unreadable_iff]

theorem find?_ensure_of_ne (source : Source) (h : FilePath.key path ≠ key) :
    (s.ensure source path).1.find? key = s.find? key := by
  rw [find?_ensure, if_neg h, Option.or_none]

theorem ensureAll_cons : s.ensureAll source (path :: paths) =
    (s.ensure source path).1.ensureAll source paths := rfl

theorem find?_ensureAll_of_eq_some {f : KeptFile} (h : s.find? key = some f) :
    (s.ensureAll source paths).find? key = some f := by
  induction paths generalizing s with
  | nil => exact h
  | cons path paths ih =>
    rw [ensureAll_cons]
    exact ih (by rw [find?_ensure, h, Option.some_or])

/-- The paths that are asked for in vain, or those that are not. -/
def asks (source : Source) (vain : Bool) (s : Session) : List String → List String
  | [] => []
  | path :: paths =>
    let rest := asks source vain (s.ensure source path).1 paths
    if ((s.ensure source path).2 == .unreadable) = vain then path :: rest else rest

theorem asks_cons_of_eq (vain : Bool) (h : ((s.ensure source path).2 == .unreadable) = vain) :
    s.asks source vain (path :: paths) =
      path :: (s.ensure source path).1.asks source vain paths := if_pos h

theorem asks_cons_of_ne (vain : Bool) (h : ((s.ensure source path).2 == .unreadable) = !vain) :
    s.asks source vain (path :: paths) = (s.ensure source path).1.asks source vain paths := by
  rw [asks, h, if_neg (Bool.not_ne_self vain)]

theorem asks_perm (s : Session) (source : Source) (paths : List String) :
    (s.asks source false paths ++ s.asks source true paths).Perm paths := by
  induction paths generalizing s with
  | nil => exact .nil
  | cons path paths ih =>
    cases h : (s.ensure source path).2 == .unreadable with
    | false =>
      rw [asks_cons_of_eq false h, asks_cons_of_ne true h]
      exact (ih _).cons path
    | true =>
      rw [asks_cons_of_ne false h, asks_cons_of_eq true h]
      exact List.perm_middle.trans ((ih _).cons path)

/-- The keys of a batch stand in the order in which they first came up. -/
theorem foldl_add (s : Session) (source : Source) (keys skipped paths : List String) :
    paths.foldl (Batch.add source) ⟨s, keys.eraseDups, skipped⟩ =
      ⟨s.ensureAll source paths,
        (keys ++ (s.asks source false paths).map FilePath.key).eraseDups,
        skipped ++ (s.asks source true paths).map FilePath.key⟩ := by
  -- Any keys may stand before, since one that comes up again is to be found among them.
  induction paths generalizing s keys skipped with
  | nil => simp [asks, ensureAll]
  | cons path paths ih =>
    rw [List.foldl_cons, ensureAll_cons]
    cases h : (s.ensure source path).2 == .unreadable with
    | true =>
      have hadd : Batch.add source ⟨s, keys.eraseDups, skipped⟩ path =
          ⟨(s.ensure source path).1, keys.eraseDups, skipped ++ [FilePath.key path]⟩ := by
        rw [Batch.add]
        split <;> simp_all
      rw [hadd, ih, asks_cons_of_ne false h, asks_cons_of_eq true h, List.map_cons,
        List.append_assoc, List.singleton_append]
    | false =>
      have hadd : Batch.add source ⟨s, keys.eraseDups, skipped⟩ path =
          ⟨(s.ensure source path).1, (keys ++ [FilePath.key path]).eraseDups, skipped⟩ := by
        rw [Batch.add, Dependency.eraseDups_concat]
        split <;> simp_all
      rw [hadd, ih, asks_cons_of_ne true h, asks_cons_of_eq false h, List.map_cons,
        List.append_assoc, List.singleton_append]

theorem isSome_find?_of_mem_asks (h : path ∈ s.asks source false paths) :
    ((s.ensureAll source paths).find? (FilePath.key path)).isSome = true := by
  induction paths generalizing s with
  | nil => exact absurd h List.not_mem_nil
  | cons p paths ih =>
    rw [ensureAll_cons]
    cases hout : (s.ensure source p).2 == .unreadable with
    | true =>
      rw [asks_cons_of_ne false hout] at h
      exact ih h
    | false =>
      rw [asks_cons_of_eq false hout] at h
      rcases List.mem_cons.mp h with rfl | h
      · have hne : (s.ensure source path).1.find? (FilePath.key path) ≠ none := by
          rw [Ne, find?_ensure_eq_none_iff]
          exact beq_eq_false_iff_ne.mp hout
        obtain ⟨f, hf⟩ := Option.ne_none_iff_exists'.mp hne
        rw [find?_ensureAll_of_eq_some hf]
        rfl
      · exact ih h

/-- A key is missed if nothing is kept under it and the path that it is first asked for by cannot
be read. Later spellings of the path do not help. -/
theorem mem_map_asks_true : key ∈ (s.asks source true paths).map FilePath.key ↔
    s.find? key = none ∧
      ∃ path, paths.find? (FilePath.key · == key) = some path ∧ source.read path = none := by
  induction paths generalizing s with
  | nil => simp [asks]
  | cons p paths ih =>
    by_cases hkey : FilePath.key p = key
    · -- The first spelling decides: if it is not in vain, the key is kept from then on.
      subst hkey
      rw [List.find?_cons_of_pos (by simp)]
      simp only [Option.some.injEq, exists_eq_left', ← unreadable_iff]
      cases hout : (s.ensure source p).2 == .unreadable with
      | true => simp [asks_cons_of_eq true hout, beq_iff_eq.mp hout]
      | false =>
        rw [asks_cons_of_ne true hout, ih, find?_ensure_eq_none_iff]
        simp [beq_eq_false_iff_ne.mp hout]
    · rw [List.find?_cons_of_neg (by simpa using hkey), ← find?_ensure_of_ne source hkey, ← ih]
      cases hout : (s.ensure source p).2 == .unreadable with
      | true => simp [asks_cons_of_eq true hout, Ne.symm hkey]
      | false => rw [asks_cons_of_ne true hout]

theorem analyzeProject_eq (s : Session) (source : Source) (paths : List String) :
    s.analyzeProject source paths =
      let t := (s.ensureAll source paths).rebuild
      let keys := ((s.asks source false paths).map FilePath.key).eraseDups
      (t, .of t.graph (keys.filterMap fun key => (t.find? key).map KeptFile.analysis)
        ((s.asks source true paths).map FilePath.key)) := by
  have hbatch := foldl_add s source [] [] paths
  rw [List.eraseDups_nil, List.nil_append, List.nil_append] at hbatch
  rw [analyzeProject, hbatch]

theorem Reflects.analysis_of_find? {f : KeptFile} (h : s.Reflects c past)
    (hfind : s.find? key = some f) : f.analysis = .of c key f.text := by
  rw [h.find] at hfind
  obtain ⟨text, -, rfl⟩ := Option.map_eq_some_iff.mp hfind
  rfl

theorem Reflects.file_of_find? {f : KeptFile} (h : s.Reflects c past)
    (hfind : s.find? key = some f) : f.analysis.file = key := by
  rw [h.analysis_of_find? hfind, FileAnalysis.file_of]

theorem Reflects.files_analyzeProject (h : s.Reflects c past) :
    (s.analyzeProject source paths).2.files.map FileReport.path =
      ((s.asks source false paths).map FilePath.key).eraseDups := by
  have ht : (s.ensureAll source paths).rebuild.Reflects c _ := (h.ensureAll source paths).rebuild
  rw [analyzeProject_eq]
  dsimp only
  rw [ProjectReport.of, List.map_map]
  change List.map FileAnalysis.file _ = _
  rw [List.map_filterMap]
  refine (List.filterMap_congr fun key hkey => ?_).trans List.filterMap_some
  obtain ⟨path, hpath, rfl⟩ := List.mem_map.mp (List.mem_eraseDups.mp hkey)
  obtain ⟨f, hf⟩ := Option.isSome_iff_exists.mp (isSome_find?_of_mem_asks hpath)
  have hf' : (s.ensureAll source paths).rebuild.find? (FilePath.key path) = some f := hf
  rw [hf', Option.map_some, Option.map_some, ht.file_of_find? hf']

theorem skipped_analyzeProject : (s.analyzeProject source paths).2.skipped =
    (s.asks source true paths).map FilePath.key := by
  rw [analyzeProject_eq]
  rfl

theorem nodup_eraseDups_append_iff {l l' : List String} :
    (l.eraseDups ++ l').Nodup ↔ ∀ a ∈ l', (l ++ l').count a = 1 := by
  simp only [List.count_append]
  rw [List.nodup_append]
  constructor
  · rintro ⟨-, hnodup, hdisjoint⟩ a ha
    have hnot : a ∉ l := fun hl => hdisjoint a (List.mem_eraseDups.mpr hl) a ha rfl
    rw [List.count_eq_zero_of_not_mem hnot, List.count_eq_one_of_mem hnodup ha]
  · intro hcount
    refine ⟨Dependency.nodup_eraseDups l, List.nodup_iff_count_le_one.mpr fun a => ?_, ?_⟩
    · by_cases ha : a ∈ l'
      · have hone := hcount a ha
        omega
      · rw [List.count_eq_zero_of_not_mem ha]
        exact Nat.zero_le 1
    · rintro a ha _ ha' rfl
      have hone := hcount a ha'
      have hl : 0 < l.count a := List.count_pos_iff.mpr (List.mem_eraseDups.mp ha)
      have hl' : 0 < l'.count a := List.count_pos_iff.mpr ha'
      omega

theorem length_eq_card_iff_nodup {l l' : List String} (h : ∀ a, a ∈ l ↔ a ∈ l') :
    l.length = l'.toFinset.card ↔ l.Nodup := by
  have hset : l.toFinset = l'.toFinset := by
    ext a
    rw [List.mem_toFinset, List.mem_toFinset, h]
  rw [← hset, List.card_toFinset]
  constructor
  · intro hlength
    rw [← (List.dedup_sublist l).eq_of_length hlength.symm]
    exact List.nodup_dedup l
  · intro hnodup
    rw [hnodup.dedup]

/-- The report on a list of paths has every file that is kept then, once, and skips the others: a
file is skipped if nothing was kept of it and the path by which it is asked for first cannot be
read. Together that is every file that was asked for and no other, but every file once, and as many
as were asked for, exactly if no file that is skipped was asked for more than once. -/
theorem report_lists_once_iff (c : Config) (requests : List (Source × Request)) (source : Source)
    (paths : List String) :
    let s := serve c requests
    let report := (s.analyzeProject source paths).2
    let asked := paths.map FilePath.key
    let reported := report.files.map FileReport.path
    (∀ key, key ∈ reported ++ report.skipped ↔ key ∈ asked) ∧
    reported.Nodup ∧
    (∀ key, key ∈ report.skipped ↔ s.find? key = none ∧
      ∃ path, paths.find? (FilePath.key · == key) = some path ∧ source.read path = none) ∧
    ((reported ++ report.skipped).Nodup ↔ ∀ key ∈ report.skipped, asked.count key = 1) ∧
    (report.summary.totalFiles + report.summary.skippedFiles = asked.toFinset.card ↔
      ∀ key ∈ report.skipped, asked.count key = 1) := by
  intro s report asked reported
  obtain ⟨hreflects, -⟩ := serve_invariant c requests
  have hreported : reported = ((s.asks source false paths).map FilePath.key).eraseDups :=
    hreflects.files_analyzeProject
  have hskipped : report.skipped = (s.asks source true paths).map FilePath.key :=
    skipped_analyzeProject
  have hperm : ((s.asks source false paths).map FilePath.key ++ report.skipped).Perm asked := by
    rw [hskipped, ← List.map_append]
    exact (asks_perm s source paths).map FilePath.key
  have hmem : ∀ key, key ∈ reported ++ report.skipped ↔ key ∈ asked := by
    intro key
    rw [hreported, ← hperm.mem_iff, List.mem_append, List.mem_append, List.mem_eraseDups]
  have honce : (reported ++ report.skipped).Nodup ↔
      ∀ key ∈ report.skipped, asked.count key = 1 := by
    rw [hreported, nodup_eraseDups_append_iff]
    simp only [hperm.count_eq]
  have htotal : report.summary.totalFiles + report.summary.skippedFiles =
      (reported ++ report.skipped).length := by
    rw [List.length_append, List.length_map]
    rfl
  refine ⟨hmem, ?_, fun key => ?_, honce, ?_⟩
  · rw [hreported]
    exact Dependency.nodup_eraseDups _
  · rw [hskipped, mem_map_asks_true]
  · rw [htotal, length_eq_card_iff_nodup hmem, honce]

/-- A file that is asked for by two spellings, the first of which can be read, and one that is not
there. -/
theorem report_lists_once_iff_spellings :
    let report := ((serve .default []).analyzeProject before.source ["./a.ts", "a.ts", "b.ts"]).2
    (∀ key ∈ report.skipped, (["./a.ts", "a.ts", "b.ts"].map FilePath.key).count key = 1) ∧
      (report.files.map FileReport.path ++ report.skipped).Nodup ∧
      report.summary.totalFiles + report.summary.skippedFiles = 2 := by
  intro report
  obtain ⟨hmem, -, hskipped, honce, htotal⟩ :=
    report_lists_once_iff .default [] before.source ["./a.ts", "a.ts", "b.ts"]
  have hkeys : ["./a.ts", "a.ts", "b.ts"].map FilePath.key = ["a.ts", "a.ts", "b.ts"] := by
    decide +kernel
  have hcount : ∀ key ∈ report.skipped,
      (["./a.ts", "a.ts", "b.ts"].map FilePath.key).count key = 1 := by
    intro key hkey
    have hasked : key = "a.ts" ∨ key = "b.ts" := by
      have hlisted := (hmem key).mp (List.mem_append_right _ hkey)
      rw [hkeys] at hlisted
      simpa using hlisted
    obtain ⟨-, path, hpath, hread⟩ := (hskipped key).mp hkey
    rcases hasked with rfl | rfl
    · have hfirst : ["./a.ts", "a.ts", "b.ts"].find? (FilePath.key · == "a.ts") =
          some "./a.ts" := by decide +kernel
      rw [hfirst] at hpath
      obtain rfl := Option.some.inj hpath
      exact absurd hread (by decide +kernel)
    · rw [hkeys]
      decide
  refine ⟨hcount, honce.mpr hcount, (htotal.mpr hcount).trans ?_⟩
  rw [hkeys]
  decide

/-- A file that is not there stands among the skipped ones for every time that it was asked for. -/
theorem not_forall_report_lists_once :
    ¬∀ (c : Config) (requests : List (Source × Request)) (source : Source) (paths : List String),
      let report := ((serve c requests).analyzeProject source paths).2
      let asked := paths.map FilePath.key
      let reported := report.files.map FileReport.path
      (∀ key, key ∈ reported ++ report.skipped ↔ key ∈ asked) ∧
      (reported ++ report.skipped).Nodup ∧
      report.summary.totalFiles + report.summary.skippedFiles = asked.toFinset.card := by
  intro h
  have hnodup := (h .default [] Source.Memory.empty.source ["b.ts", "b.ts"]).2.1
  have hskipped : ((serve .default []).analyzeProject Source.Memory.empty.source
      ["b.ts", "b.ts"]).2.skipped = ["b.ts", "b.ts"] := by decide +kernel
  have htwice : ["b.ts", "b.ts"].Nodup := by
    rw [← hskipped]
    exact hnodup.of_append_right
  exact absurd htwice (by decide)

end Session

end CodeAtlas
