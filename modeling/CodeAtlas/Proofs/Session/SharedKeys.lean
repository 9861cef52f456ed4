import CodeAtlas.Proofs.Session.Coherence
import CodeAtlas.Proofs.Source.NormalPaths

/-! Paths that are one file to a session. A session tells files apart by keys, in which backslashes
have become slashes, so two paths have one key when their steps are made of the same pieces between
backslashes. The one that is read first then stands for the other. -/

namespace CodeAtlas

namespace FilePath

def slashed (c : Char) : Char := if c = '\\' then '/' else c

theorem splitOn_slashed {name : List Char} (h : '/' ∉ name) :
    (name.map slashed).splitOn '/' = name.splitOn '\\' := by
  induction name with
  | nil => rfl
  | cons c cs ih =>
    obtain ⟨hc, hcs⟩ := not_or.mp (mt List.mem_cons.mpr h)
    rw [List.map_cons, List.splitOn_cons_eq_if_modifyHead, List.splitOn_cons_eq_if_modifyHead,
      ih hcs]
    by_cases hback : c = '\\'
    · rw [hback]
      rfl
    · have hsame : slashed c = c := if_neg hback
      rw [hsame, beq_false_of_ne (Ne.symm hc), beq_false_of_ne hback]

theorem splitOn_slashed_intercalate {parts : List (List Char)} (hne : parts ≠ [])
    (h : ∀ part ∈ parts, '/' ∉ part) :
    ((['/'].intercalate parts).map slashed).splitOn '/' = parts.flatMap (List.splitOn '\\') := by
  induction parts with
  | nil => exact absurd rfl hne
  | cons part more ih =>
    rw [List.forall_mem_cons] at h
    cases more with
    | nil => rw [List.intercalate_singleton, splitOn_slashed h.1, List.flatMap_singleton]
    | cons next more =>
      have hslash : slashed '/' = '/' := rfl
      rw [List.intercalate_cons_cons, List.append_assoc, List.singleton_append, List.map_append,
        List.map_cons, hslash, List.splitOn_append_cons_self, splitOn_slashed h.1,
        ih (List.cons_ne_nil next more) h.2]
      rfl

end FilePath

namespace NormalPath

open FilePath

variable {p q : NormalPath}

/-- The steps of a path, or an empty one if it has none, cut at backslashes; before them an empty
one if the path starts at the root. -/
def pieces (p : NormalPath) : List (List Char) :=
  (if p.rooted then [[]] else []) ++
    if p.steps = [] then [[]] else p.steps.flatMap fun step => step.text.toList.splitOn '\\'

theorem Spelled.splitOn_steps (h : p.Spelled) :
    (("/".intercalate (p.steps.map Component.text)).toList.map slashed).splitOn '/' =
      if p.steps = [] then [[]] else p.steps.flatMap fun step => step.text.toList.splitOn '\\' := by
  split
  · rename_i hsteps
    rw [hsteps]
    rfl
  · rename_i hsteps
    have hslash : ∀ part ∈ p.steps.map fun step => step.text.toList, '/' ∉ part := by
      intro part hpart
      obtain ⟨step, hstep, rfl⟩ := List.mem_map.mp hpart
      exact (h.isInner step hstep).1
    have hsplit := splitOn_slashed_intercalate (by simpa using hsteps) hslash
    rw [List.flatMap_map] at hsplit
    rw [String.toList_intercalate, List.map_map]
    exact hsplit

theorem Spelled.splitOn_key (h : p.Spelled) : p.key.toList.splitOn '/' = p.pieces := by
  have hkey : p.key.toList = p.text.toList.map slashed := String.toList_ofList
  rw [hkey, text_eq h, pieces]
  split
  · have hroot : ("/" : String).toList.map slashed = ['/'] := rfl
    rw [String.toList_append, List.map_append, hroot, List.singleton_append,
      ← List.nil_append ('/' :: _), List.splitOn_append_cons_self, h.splitOn_steps]
    rfl
  · exact h.splitOn_steps

theorem intercalate_splitOn_key (p : NormalPath) :
    ['/'].intercalate (p.key.toList.splitOn '/') = p.key.toList := List.intercalate_splitOn '/'

theorem Spelled.key_eq_iff (hp : p.Spelled) (hq : q.Spelled) :
    p.key = q.key ↔ p.pieces = q.pieces := by
  rw [← hp.splitOn_key, ← hq.splitOn_key]
  constructor
  · intro h
    rw [h]
  · intro h
    apply String.toList_injective
    rw [← intercalate_splitOn_key p, h, intercalate_splitOn_key q]

theorem components_inj : p.components = q.components ↔ p = q := by
  constructor
  · intro h
    rw [← ofComponents_components p, h, ofComponents_components]
  · exact congrArg components

end NormalPath

namespace FilePath

variable {p q : String}

theorem key_eq_iff_pieces : key p = key q ↔ (normal p).pieces = (normal q).pieces :=
  (NormalPath.spelled_normal p).key_eq_iff (NormalPath.spelled_normal q)

theorem normal_key (h : '\\' ∉ p.toList) : normal (key p) = normal p := by
  rw [key, key_eq_text (backslash_not_mem_text h)]
  exact (NormalPath.spelled_normal p).normal_text

theorem key_eq_iff_components (hp : '\\' ∉ p.toList) (hq : '\\' ∉ q.toList) :
    key p = key q ↔ (normal p).components = (normal q).components := by
  rw [NormalPath.components_inj]
  constructor
  · intro h
    rw [← normal_key hp, h, normal_key hq]
  · exact congrArg NormalPath.key

end FilePath

namespace Event

/-- The path under a key and the text that was there. -/
def fileAt? (key : String) : Event → Option (String × String)
  | asked path text => if FilePath.key path = key then text.map (path, ·) else none
  | cleared => none

theorem map_fileAt? (key : String) (e : Event) : (e.fileAt? key).map Prod.snd = e.textAt? key := by
  cases e with
  | cleared => rfl
  | asked path text =>
    rw [fileAt?, textAt?]
    split
    · cases text <;> rfl
    · rfl

theorem eq_asked_of_fileAt? {key path text : String} {e : Event}
    (h : e.fileAt? key = some (path, text)) :
    e = asked path (some text) ∧ FilePath.key path = key := by
  cases e with
  | cleared => cases h
  | asked path' text' =>
    rw [fileAt?] at h
    split at h
    · obtain ⟨text'', rfl, heq⟩ := Option.map_eq_some_iff.mp h
      cases heq
      exact ⟨rfl, ‹_›⟩
    · cases h

end Event

/-- The first path under a key that could be read since everything was dropped, with its text. -/
def firstFile? (key : String) (history : List Event) : Option (String × String) :=
  (history.takeWhile Event.isAsked).reverse.findSome? (Event.fileAt? key)

section FirstFile

variable {key path text : String} {past : List Event}

theorem map_firstFile? : (firstFile? key past).map Prod.snd = firstText? key past := by
  rw [firstFile?, firstText?, List.map_findSome?]
  congr 1
  funext e
  exact e.map_fileAt? key

theorem firstFile?_eq_some (h : firstFile? key past = some (path, text)) :
    .asked path (some text) ∈ past ∧ FilePath.key path = key := by
  obtain ⟨e, he, hfile⟩ := List.exists_of_findSome?_eq_some h
  obtain ⟨rfl, hkey⟩ := Event.eq_asked_of_fileAt? hfile
  exact ⟨(List.takeWhile_subset _) (List.mem_reverse.mp he), hkey⟩

end FirstFile

namespace Session

open FilePath

variable {c : Config} {s : Session} {past : List Event} {source : Source} {q : String}

theorem isSome_findSome?_asks {k : String} {paths : List String} :
    ((paths.map source.ask).findSome? (Event.textAt? k)).isSome = true ↔
      ∃ p ∈ paths, key p = k ∧ (source.read p).isSome = true := by
  rw [List.findSome?_isSome_iff]
  constructor
  · rintro ⟨e, he, htext⟩
    obtain ⟨p, hp, rfl⟩ := List.mem_map.mp he
    rw [Source.ask, Event.textAt?] at htext
    split at htext
    · exact ⟨p, hp, ‹_›, htext⟩
    · cases htext
  · rintro ⟨p, hp, hkey, hread⟩
    refine ⟨source.ask p, List.mem_map_of_mem hp, ?_⟩
    rwa [Source.ask, Event.textAt?, if_pos hkey]

theorem Reflects.isKept_eq (h : s.Reflects c past) :
    s.isKept q = (firstText? (key q) past).isSome := by
  rw [isKept, h.find, Option.isSome_map]

theorem Reflects.isKept_handle_iff (h : s.Reflects c past) (hs : s.Current) (source : Source)
    {r : Request} (hr : r ≠ .clear) (q : String) :
    (s.handle source r).isKept q = true ↔ s.isKept q = true ∨
      ∃ p ∈ r.paths c.scan source, key p = key q ∧ (source.read p).isSome = true := by
  rw [(h.handle hs source r).isKept_eq, h.isKept_eq, Request.events_of_ne_clear hr,
    firstText?_asks, Option.isSome_or, Bool.or_eq_true, isSome_findSome?_asks]

theorem Reflects.analyzePath_eq (h : s.Reflects c past) (source : Source) (q : String) :
    (s.analyzePath source q).2 =
      (firstFile? (key q) (source.ask q :: past)).map fun file => .of c (key q) file.2 := by
  have hfind := (h.ensure source q).find (key q)
  have hanswer : (s.analyzePath source q).2 =
      ((s.ensure source q).1.find? (key q)).map KeptFile.analysis := by
    unfold analyzePath
    dsimp only
    split <;> rfl
  rw [hanswer, hfind, ← map_firstFile?, Option.map_map, Option.map_map, Function.comp_def,
    Function.comp_def]

/-- Two paths have one key if and only if their steps are made of the same pieces between
backslashes; without backslashes, if and only if their components are the same. A request makes a
path count as kept exactly when it asks for one with the same pieces that can be read. The answer
for a path is the analysis of the text of the first such path since everything was dropped. -/
theorem one_file_iff_pieces (c : Config) (requests : List (Source × Request)) :
    let s := serve c requests
    let past := history c requests
    (∀ p q, key p = key q ↔ (normal p).pieces = (normal q).pieces) ∧
    (∀ p q, '\\' ∉ p.toList → '\\' ∉ q.toList →
      (key p = key q ↔ (normal p).components = (normal q).components)) ∧
    (∀ source r q, r ≠ .clear → ((s.handle source r).isKept q = true ↔ s.isKept q = true ∨
      ∃ p ∈ r.paths c.scan source,
        (normal p).pieces = (normal q).pieces ∧ (source.read p).isSome = true)) ∧
    (∀ source q, (s.analyzePath source q).2 =
      (firstFile? (key q) (source.ask q :: past)).map fun file => .of c (key q) file.2) ∧
    ∀ (source : Source) q p text, firstFile? (key q) (source.ask q :: past) = some (p, text) →
      .asked p (some text) ∈ source.ask q :: past ∧ (normal p).pieces = (normal q).pieces := by
  intro s past
  obtain ⟨hreflects, hcurrent⟩ := serve_invariant c requests
  refine ⟨fun p q => key_eq_iff_pieces, fun p q => key_eq_iff_components,
    fun source r q hr => ?_, hreflects.analyzePath_eq, fun source q p text hfile => ?_⟩
  · simp only [← key_eq_iff_pieces]
    exact hreflects.isKept_handle_iff hcurrent source hr q
  · obtain ⟨hmem, hkey⟩ := firstFile?_eq_some hfile
    exact ⟨hmem, key_eq_iff_pieces.mp hkey⟩

/-- Two files whose names are made of the same pieces, and a third one. -/
def twins : Source.Memory := .ofFiles [("a\\b.ts", "x"), ("a/b.ts", "\nx"), ("c.ts", "")]

/-- One of the files was asked for, so that its text stands for the other one too. -/
theorem one_file_iff_pieces_twins :
    let s := serve .default [(twins.source, .path "a\\b.ts")]
    key "a\\b.ts" = key "x/../a//b.ts" ∧ key "c.ts" ≠ key "a/b.ts" ∧
      (s.handle twins.source (.path "c.ts")).isKept "./c.ts" = true ∧
      (s.analyzePath twins.source "a/b.ts").2 = some (.of .default "a/b.ts" "x") ∧
      .asked "a\\b.ts" (some "x") ∈ history .default [(twins.source, .path "a\\b.ts")] := by
  intro s
  obtain ⟨hpieces, hcomponents, hkept, hanswer, hfirst⟩ :=
    one_file_iff_pieces .default [(twins.source, .path "a\\b.ts")]
  have hfile : firstFile? (key "a/b.ts") (twins.source.ask "a/b.ts" ::
      history .default [(twins.source, .path "a\\b.ts")]) = some ("a\\b.ts", "x") := by
    decide +kernel
  refine ⟨(hpieces _ _).mpr (by decide +kernel), fun h => ?_, (hkept _ _ _ ?_).mpr (.inr ?_), ?_,
    ?_⟩
  · have hsame := (hcomponents _ _ (by decide +kernel) (by decide +kernel)).mp h
    exact absurd hsame (by decide +kernel)
  · exact Request.noConfusion
  · exact ⟨"c.ts", List.mem_singleton.mpr rfl, by decide +kernel, by decide +kernel⟩
  · have hkey : key "a/b.ts" = "a/b.ts" := by decide +kernel
    rw [hanswer, hfile, hkey]
    rfl
  · have hmem := (hfirst twins.source "a/b.ts" _ _ hfile).1
    exact (List.mem_cons.mp hmem).resolve_left (by decide +kernel)

/-- Files that are written with a slash and with a backslash are not told apart. -/
theorem not_forall_files_apart :
    (¬∀ p q, (normal p).components ≠ (normal q).components → key p ≠ key q) ∧
    (¬∀ (source : Source) p q, (normal p).components ≠ (normal q).components →
      ((new .default).analyzePath source p).1.isKept q = false) ∧
    ¬∀ (source : Source) p q, (normal p).components ≠ (normal q).components →
      (((new .default).analyzePath source p).1.analyzePath source q).2 =
        (source.read q).map (.of .default (key q)) := by
  have happart : (normal "a\\b.ts").components ≠ (normal "a/b.ts").components := by decide +kernel
  refine ⟨fun h => ?_, fun h => ?_, fun h => ?_⟩
  · exact h _ _ happart (by decide +kernel)
  · have hkept := h twins.source _ _ happart
    revert hkept
    decide +kernel
  · have hanswer := h twins.source _ _ happart
    have htotal := congrArg (Option.map fun a => a.size.breakdown.total) hanswer
    revert htotal
    decide +kernel

end Session

end CodeAtlas
