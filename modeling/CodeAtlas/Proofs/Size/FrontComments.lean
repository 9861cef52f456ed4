import CodeAtlas.Proofs.Size.Kinds

/-! Text behind block comments. The comments at the front of a line, the first of which may have
begun in an earlier line, hide nothing of what is behind them: a line is what is left of it without
them, and counts as that. -/

namespace CodeAtlas.Size

open Text

namespace Line

/-- What closes a block comment. -/
def closingMark : List Char := ['*', '/']

/-- Whether a piece of a line is so many block comments that end in it, with blanks between them.
It begins inside of the first of them or in front of it. -/
inductive Front : Bool → Nat → List Char → Prop
  | nil : Front false 0 []
  | blank {c : Char} {cs : List Char} {n : Nat} (hc : isSpace c = true) (h : Front false n cs) :
      Front false n (c :: cs)
  | opened {cs : List Char} {n : Nat} (h : Front true n cs) : Front false n (openingMark ++ cs)
  | closed {body cs : List Char} {n : Nat} (hbody : ¬closingMark <:+: body)
      (h : Front false n cs) : Front true (n + 1) (body ++ closingMark ++ cs)

/-- Whether a text is a comment that begins with a `#`, and not a private name. -/
def isHashComment : List Char → Bool
  | '#' :: cs => cs.head?.all fun c => c = '!' || isSpace c
  | _ => false

variable {inBlock sawComment : Bool} {n : Nat} {front rest body cs : List Char}

theorem classifyRest_closed (hbody : ¬closingMark <:+: body) :
    classifyRest true sawComment (body ++ closingMark ++ cs) = classifyRest false true cs := by
  induction body with
  | nil => rfl
  | cons c body ih =>
    have hopen : ∀ tail, c = '*' → body ++ closingMark ++ cs = '/' :: tail → False := by
      rintro tail rfl htail
      cases body with
      | nil => simp [closingMark] at htail
      | cons d body =>
        obtain ⟨rfl, -⟩ := List.cons.inj htail
        exact hbody (List.prefix_append closingMark body).isInfix
    rw [List.cons_append, List.cons_append, classifyRest_block hopen]
    exact ih fun h => hbody (List.infix_cons h)

theorem Front.classifyRest_append (h : Front inBlock n front) (rest : List Char) :
    classifyRest inBlock sawComment (front ++ rest) =
      classifyRest false (sawComment || decide (0 < n)) rest := by
  induction h generalizing sawComment with
  | nil => simp
  | @blank c cs n hc _ ih =>
    have hslash : ∀ body, c = '/' → cs ++ rest = '*' :: body → False := fun _ h =>
      absurd h (ne_of_isSpace hc (by decide))
    rw [List.cons_append, classifyRest_code hslash, if_pos hc, ih]
  | @opened cs n h ih =>
    have hclassify : classifyRest false sawComment (openingMark ++ cs ++ rest) =
        classifyRest true true (cs ++ rest) := rfl
    have hpos : 0 < n := by
      cases h
      exact Nat.succ_pos _
    rw [hclassify, ih]
    simp [hpos]
  | closed hbody _ ih =>
    rw [List.append_assoc, classifyRest_closed hbody, ih]
    simp

theorem trimEnd_front_append (front : List Char) (hrest : trimEnd rest ≠ []) :
    trimEnd (front ++ rest) = front ++ trimEnd rest := by
  obtain ⟨blanks, hblanks, hspace, hlast⟩ := exists_eq_trimEnd_append rest
  have hline : front ++ rest = front ++ trimEnd rest ++ blanks := by
    rw [List.append_assoc, ← hblanks]
  rw [hline]
  apply trimEnd_append_blanks hspace
  intro a ha
  apply hlast a
  rw [Option.mem_def, List.getLast?_append, List.getLast?_eq_some_getLast hrest] at ha
  rwa [Option.mem_def, List.getLast?_eq_some_getLast hrest]

/-- Without the other marks of a comment at the front of a text, it is one if a `#` makes it one. -/
theorem isComment_eq_isHashComment (hslash : ¬['/', '/'] <+: cs) (hstar : ¬['*'] <+: cs) :
    isComment cs = isHashComment cs := by
  fun_cases isComment cs with
  | case1 tail => exact absurd (List.prefix_append ['/', '/'] tail) hslash
  | case2 tail => exact absurd (List.prefix_append ['*'] tail) hstar
  | case3 => rfl
  | case4 c tail => simp [isHashComment]
  | case5 _ _ _ hhash =>
    unfold isHashComment
    split
    · exact absurd rfl (hhash _)
    · rfl

theorem classifyRest_marks {c : Char} (hcs : cs.head? = some c) (hc : isSpace c = false)
    (hblock : ¬openingMark <+: cs) :
    (classifyRest false sawComment cs).1 =
      if isComment cs then .comment else if isImport cs then .importing else .code := by
  obtain ⟨tail, rfl⟩ := List.head?_eq_some_iff.mp hcs
  have hslash : ∀ body, c = '/' → tail = '*' :: body → False := by
    rintro body rfl rfl
    exact hblock (List.prefix_append openingMark body)
  rw [classifyRest_code hslash, if_neg (by simp [hc])]
  split <;> rfl

end Line

open Line

variable {inBlock : Bool} {n : Nat} {front rest : List Char}

/-- What stands behind the block comments at the front of a line is code or an import, unless a
mark makes a comment of it too. What begins with a star is left out here. -/
theorem classify_behind_comments (hfront : Front inBlock n front)
    (hblank : ∃ c, (trimEnd rest).head? = some c ∧ isSpace c = false)
    (hmarks : ¬['/', '/'] <+: trimEnd rest ∧ ¬openingMark <+: trimEnd rest)
    (hstar : ¬['*'] <+: trimEnd rest) :
    (classify inBlock (front ++ rest)).1 =
        (if isHashComment (trimEnd rest) then .comment
        else if isImport (trimEnd rest) then .importing else .code) ∧
      (isHashComment (trimEnd rest) = false → ∀ (s : Settings) (b : Breakdown),
        (Breakdown.ofLines s (b, inBlock) [front ++ rest]).1.effective = b.effective +
          if isImport (trimEnd rest) && s.excludeImports then 0 else 1) := by
  obtain ⟨c, hhead, hspace⟩ := hblank
  have hne : trimEnd rest ≠ [] := by
    rintro hnil
    simp [hnil] at hhead
  have hkind : (classify inBlock (front ++ rest)).1 =
      (if isHashComment (trimEnd rest) then .comment
      else if isImport (trimEnd rest) then .importing else .code) := by
    rw [classify, trimEnd_front_append front hne, hfront.classifyRest_append,
      classifyRest_marks hhead hspace hmarks.2, isComment_eq_isHashComment hmarks.1 hstar]
  refine ⟨hkind, fun hhash s b => ?_⟩
  have hadd : (Breakdown.ofLines s (b, inBlock) [front ++ rest]).1 =
      b.add s (classify inBlock (front ++ rest)).1 := rfl
  rw [hadd, hkind, hhash, if_neg Bool.false_ne_true, Breakdown.add]
  dsimp only
  cases isImport (trimEnd rest) <;> cases hexclude : s.excludeImports <;>
    simp [Breakdown.counts, hexclude]

/-- A private name behind a comment that began in an earlier line and two more. -/
theorem classify_behind_comments_private :
    (classify true "a */ /* * *//**/\t#b = 1; ".toList).1 = .code ∧
      (Breakdown.ofLines .default (.empty, true) ["a */ /* * *//**/\t#b = 1; ".toList]).1.effective =
        1 := by
  have hlast : Front true 1 ([] ++ closingMark ++ ['\t']) :=
    .closed (by decide) (.blank (by decide) .nil)
  have hstar : Front true 2 (" * ".toList ++ closingMark ++ (openingMark ++ _)) :=
    .closed (by decide) (.opened hlast)
  have hfront : Front true 3 ("a ".toList ++ closingMark ++ (' ' :: (openingMark ++ _))) :=
    .closed (by decide) (.blank (by decide) (.opened hstar))
  have hcode := @classify_behind_comments true 3 _ "#b = 1; ".toList hfront
    ⟨'#', by decide, by decide⟩ ⟨by decide, by decide⟩ (by decide)
  exact ⟨hcode.1, hcode.2 rfl .default .empty⟩

/-- A comment behind a comment is one, though it does not begin with slashes. -/
theorem not_forall_classify_behind_comments :
    ¬∀ (inBlock : Bool) (n : Nat) (front rest : List Char), Front inBlock n front → 0 < n →
      (∃ c, (trimEnd rest).head? = some c ∧ isSpace c = false) →
      ¬['/', '/'] <+: trimEnd rest → ¬openingMark <+: trimEnd rest →
        (classify inBlock (front ++ rest)).1 = .code ∨
          (classify inBlock (front ++ rest)).1 = .importing := by
  intro h
  have hfront : Front false 1 (openingMark ++ (" a ".toList ++ closingMark ++ [' '])) :=
    .opened (.closed (by decide) (.blank (by decide) .nil))
  have hkind := h false 1 _ "# b".toList hfront (by decide) ⟨'#', by decide, by decide⟩ (by decide)
    (by decide)
  revert hkind
  decide +kernel

end CodeAtlas.Size
