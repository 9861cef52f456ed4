import CodeAtlas.Proofs.Size.Targets
import CodeAtlas.Proofs.Size.Words
import Mathlib.Algebra.Order.Floor.Div
import Mathlib.Order.Bounds.Defs

/-! Measuring a file fits in machine words, and what is made of a measure goes together: a file that
is too large has splits, an issue and an advice, and any other file has none of them. Where only
parts are left, they are as few as the threshold allows. -/

namespace CodeAtlas.Size

section Parts

variable {lines threshold : Nat}

theorem ceilDiv_eq_ceilDiv (n size : Nat) : ceilDiv n size = n ⌈/⌉ size :=
  (Nat.ceilDiv_eq_add_pred_div n size).symm

theorem partCount_eq (hthreshold : 1 ≤ threshold) (hlines : threshold < lines) :
    partCount lines threshold = lines ⌈/⌉ threshold := by
  unfold partCount
  rw [max_eq_left hthreshold, ceilDiv_eq_ceilDiv, max_eq_left]
  by_contra hnone
  have hzero : lines ⌈/⌉ threshold ≤ 0 := by omega
  rw [ceilDiv_le_iff_le_mul hthreshold] at hzero
  omega

/-- So few parts of the allowed size hold a file that is too large, and no fewer; there are two of
them or more, and cut evenly they are no larger than allowed. -/
theorem partCount_least (hthreshold : 1 ≤ threshold) (hlines : threshold < lines) :
    let k := partCount lines threshold
    IsLeast {m | lines ≤ m * threshold} k ∧ 2 ≤ k ∧ lines ⌈/⌉ k ≤ threshold ∧
      lines ≤ k * (lines ⌈/⌉ k) := by
  intro k
  have hk : k = lines ⌈/⌉ threshold := partCount_eq hthreshold hlines
  have hleast (m : Nat) : k ≤ m ↔ lines ≤ m * threshold := by
    rw [hk, ceilDiv_le_iff_le_mul hthreshold, Nat.mul_comm]
  have hcover : lines ≤ k * threshold := (hleast k).mp (Nat.le_refl k)
  have htwo : 2 ≤ k := by
    by_contra hone
    have hle : lines ≤ 1 * threshold := (hleast 1).mp (by omega)
    omega
  refine ⟨⟨hcover, fun m hm => (hleast m).mpr hm⟩, htwo, ?_, ?_⟩
  · rwa [ceilDiv_le_iff_le_mul (by omega)]
  · rw [← ceilDiv_le_iff_le_mul (by omega)]

def genericSplit? (f : FileNaming) (lines threshold : Nat) : Option Split := do
  let least ← ceilDiv? lines (max threshold 1)
  let parts := max least 1
  let size ← ceilDiv? lines parts
  some {
    kind := .generic
    targets := (List.range parts).map fun i =>
      f.stem ++ ".part" ++ toString (i + 1) ++ "." ++ f.extension
    description := "Split " ++ toString lines ++ " lines into " ++ toString parts ++
      " files of about " ++ toString size ++ " lines each"
    effort := .high }

theorem genericSplit?_eq (f : FileNaming) (threshold : Nat) (h : lines < 2 ^ 64) :
    genericSplit? f lines threshold = some (genericSplit f lines threshold) := by
  have hparts : 0 < max (ceilDiv lines (max threshold 1)) 1 := by omega
  simp only [genericSplit?, Option.bind_eq_bind]
  rw [ceilDiv?_eq h (by omega), Option.bind_some, ceilDiv?_eq h hparts, Option.bind_some]
  rfl

end Parts

def suggestSplits? (tree : Option Node) (file : String) (lines threshold : Nat) :
    Option (List Split) := do
  let f := FileNaming.of file
  let d ← tree.elim (some .empty) Declarations.ofTree?
  match componentSplit f d ++ hookSplit f d ++ utilitySplit f d ++ typeSplit f d with
  | [] => (genericSplit? f lines threshold).map ([·])
  | splits => some splits

/-- A file is far too large at more than twice the threshold, which has to be a word itself. -/
def severity? (lines threshold : Nat) : Option Severity :=
  (word? (threshold * 2)).map fun doubled => if doubled < lines then .high else .medium

/-- Alone, doubling a threshold may leave the words. -/
theorem severity?_eq_none_iff {lines threshold : Nat} :
    severity? lines threshold = none ↔ 2 ^ 63 ≤ threshold := by
  unfold severity? word?
  by_cases hdoubled : threshold * 2 < 2 ^ 64
  · rw [if_pos hdoubled]
    exact iff_of_false (Option.some_ne_none _) (by omega)
  · rw [if_neg hdoubled]
    exact iff_of_true rfl (by omega)

namespace Report

/-- Measures a file in machine words, and rates its issues. -/
def inWords? (s : Settings) (file text : String) (tree : Option Node) :
    Option (Report × List Severity) := do
  let breakdown ← Breakdown.ofText? s text
  let lines := breakdown.effective
  if s.threshold < lines then
    let splits ← suggestSplits? tree file lines s.threshold
    let severity ← severity? lines s.threshold
    some (⟨file, breakdown, s.threshold, splits,
      [⟨.fileTooLarge lines s.threshold, ⟨file, none⟩⟩], [.splitFile splits]⟩, [severity])
  else some (⟨file, breakdown, s.threshold, [], [], []⟩, [])

variable {s : Settings} {file text : String} {tree : Option Node} {lines threshold : Nat}

theorem suggestSplits?_eq (htree : ∀ root ∈ tree, root.subtree.length < 2 ^ 64)
    (hlines : lines < 2 ^ 64) :
    suggestSplits? tree file lines threshold =
      some (suggestSplits tree file lines threshold) := by
  have hd : tree.elim (some .empty) Declarations.ofTree? =
      some ((tree.map Declarations.ofTree).getD .empty) := by
    cases tree with
    | none => rfl
    | some root =>
      exact Declarations.ofTree?_eq
        (Nat.lt_of_le_of_lt (Declarations.total_ofTree_le root) (htree root rfl))
  simp only [suggestSplits?, suggestSplits, Option.bind_eq_bind]
  rw [hd, Option.bind_some, genericSplit?_eq _ _ hlines]
  generalize componentSplit _ _ ++ hookSplit _ _ ++ utilitySplit _ _ ++ typeSplit _ _ = splits
  cases splits <;> rfl

theorem inWords?_eq (htext : text.utf8ByteSize < 2 ^ 63)
    (htree : ∀ root ∈ tree, root.subtree.length < 2 ^ 64) :
    inWords? s file text tree =
      some (of s file text tree, (of s file text tree).issues.map Issue.severity) := by
  have hlines : (Breakdown.ofText s text).effective ≤ text.utf8ByteSize :=
    Breakdown.effective_ofText_le s text
  simp only [inWords?, of, Option.bind_eq_bind]
  rw [Breakdown.ofText?_eq s (by omega), Option.bind_some]
  split
  next hexceeds =>
    -- the threshold is only doubled if some text has more lines than it allows
    have hdouble : word? (s.threshold * 2) = some (s.threshold * 2) := if_pos (by omega)
    rw [suggestSplits?_eq htree (by omega), Option.bind_some, severity?, hdouble,
      Nat.mul_comm s.threshold 2]
    rfl
  next => rfl

theorem suggestSplits_ne_nil : suggestSplits tree file lines threshold ≠ [] := by
  unfold suggestSplits
  dsimp only
  split
  · exact List.cons_ne_nil _ _
  next hne => exact fun hnil => hne hnil

theorem eq_genericSplit {split : Split} (h : split ∈ suggestSplits tree file lines threshold)
    (hkind : split.kind = .generic) : split = genericSplit (.of file) lines threshold := by
  obtain (h | h | h | h) | h := mem_suggestSplits h
  · exact absurd ((mem_componentSplit h).1.symm.trans hkind) (by decide)
  · exact absurd ((mem_hookSplit h).1.symm.trans hkind) (by decide)
  · exact absurd ((mem_utilitySplit h).1.symm.trans hkind) (by decide)
  · exact absurd ((mem_typeSplit h).1.symm.trans hkind) (by decide)
  · exact h

section Verdicts

theorem of_too_large (h : s.threshold < (Breakdown.ofText s text).effective) :
    let lines := (Breakdown.ofText s text).effective
    let splits := suggestSplits tree file lines s.threshold
    of s file text tree = ⟨file, Breakdown.ofText s text, s.threshold, splits,
      [⟨.fileTooLarge lines s.threshold, ⟨file, none⟩⟩], [.splitFile splits]⟩ := if_pos h

theorem of_small (h : ¬s.threshold < (Breakdown.ofText s text).effective) :
    of s file text tree = ⟨file, Breakdown.ofText s text, s.threshold, [], [], []⟩ := if_neg h

theorem together (s : Settings) (file text : String) (tree : Option Node) :
    let r := of s file text tree
    r.exceeds = true ∧ r.splits ≠ [] ∧ r.issues.length = 1 ∧ r.advice.length = 1 ∨
      r.exceeds = false ∧ r.splits = [] ∧ r.issues = [] ∧ r.advice = [] := by
  intro r
  by_cases hlarge : s.threshold < (Breakdown.ofText s text).effective
  · have hr : r = _ := of_too_large hlarge
    rw [hr]
    exact .inl ⟨decide_eq_true hlarge, suggestSplits_ne_nil, rfl, rfl⟩
  · have hr : r = _ := of_small hlarge
    rw [hr]
    exact .inr ⟨decide_eq_false hlarge, rfl, rfl, rfl⟩

theorem high_iff (s : Settings) (file text : String) (tree : Option Node) :
    let r := of s file text tree
    (∃ issue ∈ r.issues, issue.severity = .high) ↔ 2 * s.threshold < r.lineCount := by
  intro r
  by_cases hlarge : s.threshold < (Breakdown.ofText s text).effective
  · have hr : r = _ := of_too_large hlarge
    rw [hr]
    simp [lineCount, Issue.severity, Problem.severity]
  · have hr : r = _ := of_small hlarge
    rw [hr]
    simp only [lineCount, List.not_mem_nil, false_and, exists_false, false_iff]
    omega

theorem generic_of_splits {split : Split} (hsplits : (of s file text tree).splits = [split])
    (hkind : split.kind = .generic) : s.threshold < (of s file text tree).lineCount ∧
      split = genericSplit (.of file) (of s file text tree).lineCount s.threshold := by
  by_cases hlarge : s.threshold < (Breakdown.ofText s text).effective
  · rw [of_too_large hlarge] at hsplits ⊢
    have hmem : split ∈ suggestSplits tree file _ s.threshold :=
      hsplits.symm ▸ List.mem_singleton_self split
    exact ⟨hlarge, eq_genericSplit hmem hkind⟩
  · rw [of_small hlarge] at hsplits
    cases hsplits

end Verdicts

/-- Measuring a file comes out in machine words, if its nodes can be counted. A file that is too
large has splits, an issue and an advice, and any other file has none; the issue is serious at more
than twice the threshold. A file that can only be cut into parts is cut into as few as hold it. -/
theorem of_in_words (s : Settings) (file text : String) (tree : Option Node) :
    let r := of s file text tree
    (text.utf8ByteSize < 2 ^ 63 → (∀ root ∈ tree, root.subtree.length < 2 ^ 64) →
      inWords? s file text tree = some (r, r.issues.map Issue.severity)) ∧
    (r.exceeds = true ∧ r.splits ≠ [] ∧ r.issues.length = 1 ∧ r.advice.length = 1 ∨
      r.exceeds = false ∧ r.splits = [] ∧ r.issues = [] ∧ r.advice = []) ∧
    ((∃ issue ∈ r.issues, issue.severity = .high) ↔ 2 * s.threshold < r.lineCount) ∧
    ∀ split, r.splits = [split] → split.kind = .generic → 1 ≤ s.threshold →
      let k := split.targets.length
      IsLeast {m | r.lineCount ≤ m * s.threshold} k ∧ 2 ≤ k ∧ split.targets.Nodup ∧
      split.description = "Split " ++ toString r.lineCount ++ " lines into " ++ toString k ++
        " files of about " ++ toString (r.lineCount ⌈/⌉ k) ++ " lines each" ∧
      r.lineCount ⌈/⌉ k ≤ s.threshold ∧ r.lineCount ≤ k * (r.lineCount ⌈/⌉ k) := by
  intro r
  refine ⟨inWords?_eq, together s file text tree, high_iff s file text tree, ?_⟩
  intro split hsplits hkind hthreshold k
  obtain ⟨hlarge, hsplit⟩ := generic_of_splits hsplits hkind
  have hk : k = partCount r.lineCount s.threshold := by
    change split.targets.length = _
    rw [hsplit, targets_genericSplit, filesOf]
    simp only [List.length_map, List.length_range, r]
  obtain ⟨hleast, htwo, hsize, hcover⟩ := partCount_least hthreshold hlarge
  rw [hk]
  refine ⟨hleast, htwo, ?_, ?_, hsize, hcover⟩
  · rw [hsplit]
    exact (usable_genericSplit file _ _).1
  · rw [hsplit, ← ceilDiv_eq_ceilDiv]
    rfl

theorem of_in_words_three :
    let text := "a();\nb();\nc();\n"
    let tree := some (Program.read .javaScript text).root
    let s : Settings := ⟨2, true, true, false⟩
    let r := of s "src/a.js" text tree
    text.utf8ByteSize < 2 ^ 63 ∧ (∀ root ∈ tree, root.subtree.length < 2 ^ 64) ∧
      inWords? s "src/a.js" text tree = some (r, [.medium]) ∧
      ∃ split, r.splits = [split] ∧ split.kind = .generic ∧ r.lineCount = 3 ∧
        IsLeast {m | 3 ≤ m * 2} split.targets.length := by
  intro text tree s r
  have htext : text.utf8ByteSize < 2 ^ 63 := by decide
  have htree : ∀ root ∈ tree, root.subtree.length < 2 ^ 64 := by
    intro root hroot
    rw [← Option.some.inj hroot]
    decide +kernel
  obtain ⟨hwords, -, -, hparts⟩ := of_in_words s "src/a.js" text tree
  obtain ⟨hseverity, hlines, hkinds⟩ : r.issues.map Issue.severity = [.medium] ∧
      r.lineCount = 3 ∧ r.splits.map Split.kind = [.generic] := by decide +kernel
  obtain ⟨split, hsplits, hkind⟩ := List.map_eq_singleton_iff.mp hkinds
  refine ⟨htext, htree, hseverity ▸ hwords htext htree, split, hsplits, hkind, hlines, ?_⟩
  have hleast := (hparts split hsplits hkind (by decide)).1
  rwa [hlines] at hleast

end Report

end CodeAtlas.Size
