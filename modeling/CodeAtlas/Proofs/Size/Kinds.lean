import CodeAtlas.Proofs.Size.Refinement

/-! What lines are, one behind the other. All that lines leave to those behind them is whether they
end inside of a block comment, and without an opening mark in them they do not. -/

namespace CodeAtlas.Size

namespace Line

/-- What each of some lines is. -/
def kinds : Bool → List (List Char) → List LineKind
  | _, [] => []
  | inBlock, line :: more => (classify inBlock line).1 :: kinds (classify inBlock line).2 more

/-- Whether some lines end inside of a block comment. -/
def leavesOpen : Bool → List (List Char) → Bool :=
  List.foldl fun inBlock line => (classify inBlock line).2

variable {inBlock : Bool} {line : List Char} {lines more : List (List Char)}

theorem leavesOpen_cons :
    leavesOpen inBlock (line :: more) = leavesOpen (classify inBlock line).2 more := rfl

theorem leavesOpen_append :
    leavesOpen inBlock (lines ++ more) = leavesOpen (leavesOpen inBlock lines) more :=
  List.foldl_append

theorem kinds_append :
    kinds inBlock (lines ++ more) = kinds inBlock lines ++ kinds (leavesOpen inBlock lines) more := by
  induction lines generalizing inBlock with
  | nil => rfl
  | cons line lines ih =>
    rw [List.cons_append, kinds, kinds, ih, leavesOpen_cons, List.cons_append]

section Marks

/-- What opens a block comment. -/
def openingMark : List Char := ['/', '*']

theorem not_infix_tail {c : Char} {cs : List Char} (h : ¬openingMark <:+: c :: cs) :
    ¬openingMark <:+: cs :=
  fun hcs => h (List.infix_cons hcs)

theorem leavesBlockOpen_of_not_infix (inside : Inside) (cs : List Char) (hinside : inside ≠ .block)
    (h : ¬openingMark <:+: cs) : leavesBlockOpen inside cs = false := by
  induction inside, cs using leavesBlockOpen.induct with
  | case1 inside =>
    rw [leavesBlockOpen]
    exact beq_false_of_ne hinside
  | case2 cs ih => exact absurd rfl hinside
  | case3 c cs hclose ih => exact absurd rfl hinside
  | case4 q => rfl
  | case5 q c cs ih => exact ih Inside.noConfusion (not_infix_tail (not_infix_tail h))
  | case6 q c cs hlast hnext ih =>
    rw [leavesBlockOpen]
    · refine ih ?_ (not_infix_tail h)
      split <;> exact Inside.noConfusion
    · exact hlast
    · exact hnext
  | case7 tail => rfl
  | case8 cs ih => exact absurd (List.prefix_append openingMark cs).isInfix h
  | case9 c cs hline hblock ih =>
    rw [leavesBlockOpen]
    · refine ih ?_ (not_infix_tail h)
      split <;> exact Inside.noConfusion
    · exact hline
    · exact hblock

theorem classifyRest_of_not_infix (sawComment : Bool) (cs : List Char)
    (h : ¬openingMark <:+: cs) : (classifyRest false sawComment cs).2 = false := by
  induction cs generalizing sawComment with
  | nil => rfl
  | cons c cs ih =>
    have hblock : ∀ body, c = '/' → cs = '*' :: body → False := by
      rintro body rfl rfl
      exact h (List.prefix_append openingMark body).isInfix
    rw [classifyRest_code hblock]
    split
    · exact ih _ (not_infix_tail h)
    · split
      · rfl
      · exact leavesBlockOpen_of_not_infix .code _ Inside.noConfusion h

theorem classify_of_not_infix (h : ¬openingMark <:+: line) : (classify false line).2 = false := by
  obtain ⟨blanks, hline, -, -⟩ := exists_eq_trimEnd_append line
  refine classifyRest_of_not_infix false _ fun htrimmed => h ?_
  rw [hline]
  exact htrimmed.trans (List.prefix_append _ blanks).isInfix

theorem leavesOpen_of_not_infix (h : ∀ line ∈ lines, ¬openingMark <:+: line) :
    leavesOpen false lines = false := by
  induction lines with
  | nil => rfl
  | cons line more ih =>
    rw [List.forall_mem_cons] at h
    rw [leavesOpen_cons, classify_of_not_infix h.1]
    exact ih h.2

end Marks

end Line

theorem Breakdown.ofLines_eq (s : Settings) (seen : List LineKind) (inBlock : Bool)
    (lines : List (List Char)) : ofLines s (tally s seen, inBlock) lines =
      (tally s (seen ++ Line.kinds inBlock lines), Line.leavesOpen inBlock lines) := by
  induction lines generalizing seen inBlock with
  | nil =>
    rw [Line.kinds, List.append_nil]
    rfl
  | cons line more ih =>
    have hline : ofLines s (tally s seen, inBlock) (line :: more) =
        ofLines s (tally s (seen ++ [(Line.classify inBlock line).1]),
          (Line.classify inBlock line).2) more := by
      rw [tally_append_singleton]
      rfl
    rw [hline, ih, Line.kinds, Line.leavesOpen_cons, List.append_assoc, List.singleton_append]

/-- Lines behind others count for what they are after these. -/
theorem Breakdown.ofLines_append (s : Settings) (lines more : List (List Char)) :
    ofLines s (.empty, false) (lines ++ more) =
      (tally s (Line.kinds false lines ++ Line.kinds (Line.leavesOpen false lines) more),
        Line.leavesOpen (Line.leavesOpen false lines) more) := by
  have hempty : Breakdown.empty = tally s [] := rfl
  rw [hempty, ofLines_eq, Line.kinds_append, Line.leavesOpen_append, List.nil_append]

end CodeAtlas.Size
