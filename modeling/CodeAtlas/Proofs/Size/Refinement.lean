import CodeAtlas.Proofs.Size.Scanner

/-! Counting line by line refines the reading of a whole text. A line is classified by stripping
comments off its front and then looking for a block comment that it leaves open; both together see
what the reader sees, whatever stands in the line, as long as no string goes on behind its end. -/

namespace CodeAtlas.Size

open Text

def Line.Inside.mode : Line.Inside → Mode
  | .code => .code
  | .quoted q => .quoted q
  | .block => .blockComment

section Rest

variable {c : Char} {cs : List Char} {sawComment : Bool}

theorem Line.classifyRest_code (h : ∀ body, c = '/' → cs = '*' :: body → False) :
    classifyRest false sawComment (c :: cs) =
      if isSpace c then classifyRest false sawComment cs
      else if isComment (c :: cs) then (.comment, false)
      else (if isImport (c :: cs) then .importing else .code,
        leavesBlockOpen .code (c :: cs)) := by
  conv => lhs; unfold classifyRest
  split <;> simp_all

theorem Line.classifyRest_block (h : ∀ rest, c = '*' → cs = '/' :: rest → False) :
    classifyRest true sawComment (c :: cs) = classifyRest true sawComment cs := by
  conv => lhs; unfold classifyRest
  split <;> simp_all

end Rest

section Blanks

variable {c d : Char} {cs blanks : List Char}

theorem ne_of_isSpace (h : isSpace c = true) (hd : isSpace d = false) : c ≠ d := by
  rintro rfl
  rw [h] at hd
  exact absurd hd (by decide)

theorem isQuote_of_isSpace (h : isSpace c = true) : Line.isQuote c = false := by
  have hdouble : c ≠ '\"' := ne_of_isSpace h (by decide)
  have hsingle : c ≠ '\'' := ne_of_isSpace h (by decide)
  have hback : c ≠ '\x60' := ne_of_isSpace h (by decide)
  simp [Line.isQuote, hdouble, hsingle, hback]

/-- Blanks behind a line hide nothing that is seen ahead. -/
theorem head?_append_blanks (hblanks : ∀ b ∈ blanks, isSpace b = true) (hd : isSpace d = false) :
    (cs ++ blanks).head? = some d ↔ ∃ tail, cs = d :: tail := by
  cases cs with
  | nil =>
    cases blanks with
    | nil => simp
    | cons b blanks => simp [ne_of_isSpace (hblanks b List.mem_cons_self) hd]
  | cons a as => simp

theorem head?_append_blanks_ne (hblanks : ∀ b ∈ blanks, isSpace b = true)
    (hd : isSpace d = false) (h : ∀ tail, cs = d :: tail → False) :
    (cs ++ blanks).head? ≠ some d := by
  intro hhead
  obtain ⟨tail, htail⟩ := (head?_append_blanks hblanks hd).mp hhead
  exact h tail htail

theorem trimEnd_append_blanks (hblanks : ∀ b ∈ blanks, isSpace b = true)
    (hcs : ∀ a ∈ cs.getLast?, isSpace a = false) : trimEnd (cs ++ blanks) = cs := by
  have hback : (blanks.reverse).dropWhile isSpace = [] := by
    rw [List.dropWhile_eq_nil_iff]
    intro b hb
    exact hblanks b (List.mem_reverse.mp hb)
  have hfront : (cs.reverse).dropWhile isSpace = cs.reverse := by
    cases hrev : cs.reverse with
    | nil => rfl
    | cons a as =>
      have hlast : cs.getLast? = some a := by rw [← List.head?_reverse, hrev, List.head?_cons]
      rw [List.dropWhile_cons_of_neg]
      rw [hcs a hlast]
      decide
  rw [trimEnd, List.reverse_append, List.dropWhile_append, hback, List.isEmpty_nil, if_pos rfl,
    hfront, List.reverse_reverse]

theorem exists_eq_trimEnd_append (line : List Char) :
    ∃ blanks, line = trimEnd line ++ blanks ∧ (∀ b ∈ blanks, isSpace b = true) ∧
      ∀ a ∈ (trimEnd line).getLast?, isSpace a = false := by
  refine ⟨(line.reverse.takeWhile isSpace).reverse, ?_, ?_, ?_⟩
  · rw [trimEnd, ← List.reverse_append, List.takeWhile_append_dropWhile, List.reverse_reverse]
  · intro b hb
    exact List.mem_takeWhile_imp (List.mem_reverse.mp hb)
  · intro a ha
    rw [trimEnd, List.getLast?_reverse] at ha
    have hhead := List.head?_dropWhile_not isSpace line.reverse
    rw [ha] at hhead
    exact hhead

theorem getLast?_of_cons (h : ∀ a ∈ (c :: cs).getLast?, isSpace a = false) :
    ∀ a ∈ cs.getLast?, isSpace a = false := by
  intro a ha
  refine h a ?_
  rw [List.getLast?_cons, ha]
  rfl

end Blanks

namespace Scanner

variable {c : Char} {next : Option Char} {cs blanks : List Char} {b : Bool}

theorem step_block (h : c = '*' → next ≠ some '/') :
    step ⟨.blockComment, b⟩ c next = ⟨.blockComment, b⟩ ∧
      inComment ⟨.blockComment, b⟩ c next = true := by
  have henter : enter ⟨.blockComment, b⟩ c next = .blockComment := by
    simp only [enter]
    rw [if_neg (by simpa using h)]
  simp [step, inComment, henter, Mode.isComment]

theorem step_quoted {q : Char} (h : c ≠ '\\') : step ⟨.quoted q, b⟩ c next =
    ⟨(if c = q then Line.Inside.code else .quoted q).mode, b && isSpace c⟩ := by
  have hclosing : (Mode.quoted q == .closing) = false := rfl
  rw [step, inComment]
  simp only [enter, if_neg h]
  split <;> simp [Line.Inside.mode, Mode.isComment, hclosing]

theorem step_code (hopens : b = true → opensLine c next = false)
    (hslash : c = '/' → next ≠ some '/' ∧ next ≠ some '*') :
    step ⟨.code, b⟩ c next =
        ⟨(if Line.isQuote c then Line.Inside.quoted c else .code).mode, b && isSpace c⟩ ∧
      inComment ⟨.code, b⟩ c next = false := by
  have hline : ((b && opensLine c next) || (c = '/' && next == some '/')) = false := by
    cases b <;> simp_all
  have hblock : (c = '/' && next == some '*') = false := by simp_all
  have henter : enter ⟨.code, b⟩ c next =
      (if Line.isQuote c then Line.Inside.quoted c else .code).mode := by
    simp only [enter, hline, hblock, Bool.false_eq_true, if_false]
    split <;> rfl
  have hclosing : (Mode.code == .closing) = false := rfl
  rw [step, inComment, henter]
  split <;> simp [Line.Inside.mode, Mode.isComment, hclosing]

theorem opensLine_of_isSpace (h : isSpace c = true) : opensLine c next = false := by
  have hstar : c ≠ '*' := ne_of_isSpace h (by decide)
  have hhash : c ≠ '#' := ne_of_isSpace h (by decide)
  simp [opensLine, hstar, hhash]

theorem step_space (h : isSpace c = true) : step ⟨.code, b⟩ c next = ⟨.code, b⟩ ∧
    inComment ⟨.code, b⟩ c next = false := by
  have hopens : b = true → opensLine c next = false := fun _ => opensLine_of_isSpace h
  have hcode := step_code hopens fun hc => absurd hc (ne_of_isSpace h (by decide))
  rwa [if_neg (by rw [isQuote_of_isSpace h]; decide), h, Bool.and_true] at hcode

theorem after_blanks (hblanks : ∀ d ∈ blanks, isSpace d = true) (inside : Line.Inside) :
    ((after ⟨inside.mode, b⟩ blanks).mode == .blockComment) = (inside == .block) := by
  induction blanks generalizing inside with
  | nil => cases inside <;> rfl
  | cons d ds ih =>
    rw [List.forall_mem_cons] at hblanks
    rw [after]
    cases inside with
    | code =>
      rw [Line.Inside.mode, (step_space hblanks.1).1]
      exact ih hblanks.2 .code
    | quoted q =>
      rw [Line.Inside.mode, step_quoted (ne_of_isSpace hblanks.1 (by decide)), hblanks.1,
        Bool.and_true, ih hblanks.2]
      split <;> rfl
    | block =>
      have hstar : d ≠ '*' := ne_of_isSpace hblanks.1 (by decide)
      rw [Line.Inside.mode, (step_block fun h => absurd h hstar).1]
      exact ih hblanks.2 .block

theorem mode_after_lineComment (cs : List Char) :
    (after ⟨.lineComment, b⟩ cs).mode = .lineComment := by
  induction cs generalizing b with
  | nil => rfl
  | cons c cs ih => exact ih

theorem all_isVoid_marks_lineComment (cs : List Char) :
    (marks ⟨.lineComment, b⟩ cs).all isVoid = true := by
  induction cs generalizing b with
  | nil => rfl
  | cons c cs ih =>
    rw [marks, List.all_cons, Bool.and_eq_true]
    exact ⟨Bool.or_true _, ih⟩

theorem leavesBlockOpen_eq (hblanks : ∀ d ∈ blanks, isSpace d = true) (inside : Line.Inside)
    (cs : List Char) : Line.leavesBlockOpen inside cs =
      ((after ⟨inside.mode, false⟩ (cs ++ blanks)).mode == .blockComment) := by
  induction inside, cs using Line.leavesBlockOpen.induct with
  | case1 inside => rw [Line.leavesBlockOpen, List.nil_append, after_blanks hblanks]
  | case2 cs ih =>
    rw [Line.leavesBlockOpen, ih]
    rfl
  | case3 c cs hclose ih =>
    have hopen : c = '*' → (cs ++ blanks).head? ≠ some '/' := fun hc =>
      head?_append_blanks_ne hblanks (by decide) fun tail => hclose tail hc
    have hstep := step_block (b := false) hopen
    rw [Line.leavesBlockOpen, ih, List.cons_append, after, Line.Inside.mode, hstep.1]
    exact hclose
  | case4 q =>
    -- Whatever is behind the backslash, the string goes on behind it.
    cases blanks with
    | nil => rfl
    | cons d ds =>
      rw [List.forall_mem_cons] at hblanks
      exact (after_blanks hblanks.2 (.quoted q)).symm
  | case5 q c cs ih =>
    rw [Line.leavesBlockOpen, ih]
    rfl
  | case6 q c cs hlast hnext ih =>
    have hc : c ≠ '\\' := by
      rintro rfl
      cases cs with
      | nil => exact hlast rfl rfl
      | cons d ds => exact hnext d ds rfl rfl
    rw [Line.leavesBlockOpen, ih, List.cons_append, after, Line.Inside.mode, step_quoted hc,
      Bool.false_and]
    · exact hlast
    · exact hnext
  | case7 tail =>
    have hmode : (after ⟨.code, false⟩ ('/' :: '/' :: tail ++ blanks)).mode = .lineComment :=
      mode_after_lineComment _
    rw [Line.leavesBlockOpen, Line.Inside.mode, hmode]
    rfl
  | case8 cs ih =>
    rw [Line.leavesBlockOpen, ih]
    rfl
  | case9 c cs hline hblock ih =>
    have hslash : c = '/' → (cs ++ blanks).head? ≠ some '/' ∧ (cs ++ blanks).head? ≠ some '*' := by
      intro hc
      exact ⟨head?_append_blanks_ne hblanks (by decide) fun tail => hline tail hc,
        head?_append_blanks_ne hblanks (by decide) fun tail => hblock tail hc⟩
    rw [Line.leavesBlockOpen, ih, List.cons_append, after, Line.Inside.mode,
      (step_code (fun h => absurd h Bool.false_ne_true) hslash).1, Bool.false_and]
    · exact hline
    · exact hblock

end Scanner

section Kinds

variable {c : Char} {mark : Char × Bool} {marks : List (Char × Bool)} {begun marked : Bool}

theorem kindOf_cons_space (h : isSpace c = true) :
    kindOf begun ((c, marked) :: marks) = kindOf begun marks := by
  have hvoid : isVoid (c, marked) = true := by rw [isVoid, h, Bool.true_or]
  rw [kindOf, List.all_cons, h, Bool.true_and, List.all_cons, hvoid, Bool.true_and,
    List.dropWhile_cons_of_pos hvoid, ← kindOf]

theorem kindOf_cons_comment (h : begun = true ∨ isSpace c = false) :
    kindOf begun ((c, true) :: marks) = kindOf true marks := by
  have hvoid : isVoid (c, true) = true := Bool.or_true _
  have hblank : (!begun && ((c, true) :: marks).all fun mark => isSpace mark.1) = false := by
    rcases h with h | h
    · rw [h, Bool.not_true, Bool.false_and]
    · rw [List.all_cons, h, Bool.false_and, Bool.and_false]
  rw [kindOf, hblank, List.all_cons, hvoid, Bool.true_and, List.dropWhile_cons_of_pos hvoid]
  rfl

theorem kindOf_cons_code (h : isVoid mark = false) : kindOf begun (mark :: marks) =
    if Line.isImport (trimEnd ((mark :: marks).map Prod.fst)) then .importing else .code := by
  have hspace : isSpace mark.1 = false := (Bool.or_eq_false_iff.mp h).1
  simp [kindOf, h, hspace]

theorem kindOf_blanks {blanks : List Char} {s : Scanner}
    (hblanks : ∀ d ∈ blanks, isSpace d = true) :
    kindOf begun (s.marks blanks) = if begun then .comment else .blank := by
  have hspace : (s.marks blanks).all (fun mark => isSpace mark.1) = true := by
    rw [List.all_eq_true]
    intro mark hmark
    rw [← Scanner.map_fst_marks s blanks] at hblanks
    exact hblanks _ (List.mem_map_of_mem hmark)
  have hvoid : (s.marks blanks).all isVoid = true := by
    rw [List.all_eq_true] at hspace ⊢
    intro mark hmark
    rw [isVoid, hspace mark hmark, Bool.true_or]
  cases begun <;> simp [kindOf, hspace, hvoid]

end Kinds

namespace Scanner

variable {cs blanks : List Char}

def ofBlock (inBlock : Bool) : Scanner := ⟨if inBlock then .blockComment else .code, true⟩

theorem ofBlock_true : ofBlock true = ⟨.blockComment, true⟩ := rfl

theorem ofBlock_false : ofBlock false = ⟨.code, true⟩ := rfl

theorem isComment_iff {c : Char} (hblanks : ∀ d ∈ blanks, isSpace d = true) :
    Line.isComment (c :: cs) = true ↔
      opensLine c (cs ++ blanks).head? = true ∨ (c = '/' ∧ (cs ++ blanks).head? = some '/') := by
  rw [head?_append_blanks hblanks (by decide), opensLine]
  generalize hline : c :: cs = line
  fun_cases Line.isComment line with
  | case1 tail => simp_all
  | case2 tail => simp_all
  | case3 => cases blanks <;> simp_all
  | case4 d ds => simp_all
  | case5 _ hslash hstar hhash =>
    subst hline
    have hne : c ≠ '*' ∧ c ≠ '#' := ⟨fun h => hstar cs (h ▸ rfl), fun h => hhash cs (h ▸ rfl)⟩
    simp only [hne, Bool.false_eq_true, false_iff, decide_false, Bool.false_and, Bool.or_false,
      false_or, not_and, not_exists]
    rintro rfl tail rfl
    exact hslash tail rfl

theorem step_comment (h : opensLine c next = true ∨ (c = '/' ∧ next = some '/')) :
    step ⟨.code, true⟩ c next = ⟨.lineComment, true⟩ ∧
      inComment ⟨.code, true⟩ c next = true := by
  have henter : enter ⟨.code, true⟩ c next = .lineComment := by
    rcases h with h | ⟨rfl, rfl⟩
    · simp [enter, h]
    · rfl
  simp [step, inComment, henter, Mode.isComment]

/-- Stripping the comments off a line and looking for one that it leaves open sees what the reader
sees. -/
theorem classifyRest_eq (hblanks : ∀ d ∈ blanks, isSpace d = true) (inBlock sawComment : Bool)
    (cs : List Char) (hcs : ∀ a ∈ cs.getLast?, isSpace a = false) :
    Line.classifyRest inBlock sawComment cs =
      (kindOf (inBlock || sawComment) (marks (ofBlock inBlock) (cs ++ blanks)),
        (after (ofBlock inBlock) (cs ++ blanks)).mode == .blockComment) := by
  induction inBlock, sawComment, cs using Line.classifyRest.induct with
  | case1 sawComment =>
    have hafter : ((after (ofBlock true) blanks).mode == .blockComment) = true :=
      after_blanks hblanks .block
    rw [List.nil_append, kindOf_blanks hblanks, hafter]
    rfl
  | case2 sawComment rest ih =>
    have hmarks : marks (ofBlock true) ('*' :: '/' :: rest ++ blanks) =
        ('*', true) :: ('/', true) :: marks (ofBlock false) (rest ++ blanks) := rfl
    have hrest := getLast?_of_cons (getLast?_of_cons hcs)
    have hclassify : Line.classifyRest true sawComment ('*' :: '/' :: rest) =
        Line.classifyRest false true rest := rfl
    rw [hclassify, ih hrest, hmarks, Bool.true_or, kindOf_cons_comment (.inl rfl),
      kindOf_cons_comment (.inl rfl)]
    rfl
  | case3 sawComment c cs hclose ih =>
    have hopen : c = '*' → (cs ++ blanks).head? ≠ some '/' := fun hc =>
      head?_append_blanks_ne hblanks (by decide) fun tail => hclose tail hc
    obtain ⟨hmarks, hafter⟩ := read_cons _ (step_block (b := true) hopen)
    rw [Line.classifyRest_block hclose, ih (getLast?_of_cons hcs), List.cons_append, ofBlock_true,
      hmarks, hafter, Bool.true_or, kindOf_cons_comment (.inl rfl)]
  | case4 sawComment =>
    have hafter : ((after (ofBlock false) blanks).mode == .blockComment) = false :=
      after_blanks hblanks .code
    rw [List.nil_append, kindOf_blanks hblanks, hafter]
    rfl
  | case5 sawComment body ih =>
    have hmarks : marks (ofBlock false) ('/' :: '*' :: body ++ blanks) =
        ('/', true) :: ('*', true) :: marks (ofBlock true) (body ++ blanks) := rfl
    have hbody := getLast?_of_cons (getLast?_of_cons hcs)
    have hclassify : Line.classifyRest false sawComment ('/' :: '*' :: body) =
        Line.classifyRest true true body := rfl
    rw [hclassify, ih hbody, hmarks, kindOf_cons_comment (.inr (by decide)),
      kindOf_cons_comment (.inl rfl)]
    rfl
  | case6 sawComment c cs hblock hspace ih =>
    obtain ⟨hmarks, hafter⟩ := read_cons (cs ++ blanks) (step_space (b := true) hspace)
    rw [Line.classifyRest_code hblock, if_pos hspace, ih (getLast?_of_cons hcs), List.cons_append,
      ofBlock_false, hmarks, hafter, kindOf_cons_space hspace]
  | case7 sawComment c cs hblock hspace hcomment =>
    obtain ⟨hmarks, hafter⟩ := read_cons _ (step_comment ((isComment_iff hblanks).mp hcomment))
    have hvoid := all_isVoid_marks_lineComment (b := true) (cs ++ blanks)
    have hkind : kindOf true (marks ⟨.lineComment, true⟩ (cs ++ blanks)) = .comment := by
      rw [kindOf, Bool.not_true, Bool.false_and, if_neg Bool.false_ne_true, if_pos hvoid]
    rw [Line.classifyRest_code hblock, if_neg hspace, if_pos hcomment, List.cons_append,
      ofBlock_false, hmarks, hafter, mode_after_lineComment,
      kindOf_cons_comment (.inr (Bool.eq_false_iff.mpr hspace)), hkind]
    rfl
  | case8 sawComment c cs hblock hspace hcomment =>
    have hopens := mt (isComment_iff hblanks).mpr hcomment
    rw [not_or, Bool.not_eq_true] at hopens
    have hslash : c = '/' → (cs ++ blanks).head? ≠ some '/' ∧ (cs ++ blanks).head? ≠ some '*' := by
      intro hc
      exact ⟨fun hnext => hopens.2 ⟨hc, hnext⟩,
        head?_append_blanks_ne hblanks (by decide) fun tail => hblock tail hc⟩
    have hstep (b) := step_code (b := b) (fun _ => hopens.1) hslash
    obtain ⟨hmarks, hfresh⟩ := read_cons _ (hstep true)
    obtain ⟨-, hstale⟩ := read_cons _ (hstep false)
    have hafter : after (ofBlock false) (c :: (cs ++ blanks)) =
        after ⟨Line.Inside.code.mode, false⟩ (c :: cs ++ blanks) := by
      rw [List.cons_append, ofBlock_false, Line.Inside.mode, hfresh, hstale,
        Bool.eq_false_iff.mpr hspace, Bool.and_false, Bool.and_false]
    have hvoid : isVoid (c, false) = false := by
      rw [isVoid, Bool.eq_false_iff.mpr hspace, Bool.or_false]
    rw [Line.classifyRest_code hblock, if_neg hspace, if_neg hcomment, List.cons_append, hafter,
      ← leavesBlockOpen_eq hblanks, ofBlock_false, hmarks, kindOf_cons_code hvoid, ← hmarks,
      map_fst_marks, ← List.cons_append, trimEnd_append_blanks hblanks hcs]

theorem classify_eq (inBlock : Bool) (line : List Char) : Line.classify inBlock line =
    (kindOf inBlock (marks (ofBlock inBlock) line),
      (after (ofBlock inBlock) line).mode == .blockComment) := by
  obtain ⟨blanks, hline, hblanks, hlast⟩ := exists_eq_trimEnd_append line
  have hrest := classifyRest_eq hblanks inBlock false (trimEnd line) hlast
  rwa [← hline, Bool.or_false] at hrest

theorem isPending_enter_none (s : Scanner) (c : Char) : (s.enter c none).isPending = false := by
  fun_cases s.enter c none with
  | case2 _ _ h | case10 _ h => simp at h
  | _ => rfl

theorem isPending_after (s : Scanner) {line : List Char} (hne : line ≠ []) :
    (after s line).mode.isPending = false := by
  induction line generalizing s with
  | nil => exact absurd rfl hne
  | cons c cs ih =>
    cases cs with
    | nil => exact isPending_enter_none s c
    | cons d ds => exact ih _ (List.cons_ne_nil d ds)

theorem newLine_after {inBlock : Bool} {line : List Char}
    (h : (after (ofBlock inBlock) line).mode.isQuoted = false) :
    (after (ofBlock inBlock) line).newLine =
      ofBlock ((after (ofBlock inBlock) line).mode == .blockComment) := by
  have hpending : (after (ofBlock inBlock) line).mode.isPending = false := by
    cases line with
    | nil => cases inBlock <;> rfl
    | cons c cs => exact isPending_after _ (List.cons_ne_nil c cs)
  generalize after (ofBlock inBlock) line = s at h hpending
  obtain ⟨mode, fresh⟩ := s
  cases mode <;> simp_all [newLine, ofBlock, Mode.isQuoted, Mode.isPending]

end Scanner

namespace Breakdown

/-- How many lines there are of each kind, and how many of them count. -/
def tally (s : Settings) (kinds : List LineKind) : Breakdown where
  total := kinds.length
  blank := kinds.count .blank
  comment := kinds.count .comment
  importing := kinds.count .importing
  code := kinds.count .code
  effective := kinds.countP (counts s)

open Scanner

variable (s : Settings)

theorem tally_append_singleton (kinds : List LineKind) (kind : LineKind) :
    tally s (kinds ++ [kind]) = (tally s kinds).add s kind := by
  simp [tally, add, List.count_singleton, List.countP_singleton]

theorem ofLines_cons (seen : List LineKind) (inBlock : Bool) (line : List Char)
    (more : List (List Char)) : ofLines s (tally s seen, inBlock) (line :: more) =
      ofLines s (tally s (seen ++ [kindOf inBlock (marks (ofBlock inBlock) line)]),
        (after (ofBlock inBlock) line).mode == .blockComment) more := by
  rw [tally_append_singleton, ofLines, List.foldl_cons]
  dsimp only
  rw [classify_eq]

theorem ofLines_take (seen : List LineKind) (inBlock : Bool) (text : List Char)
    (hquoted : ∀ l ∈ (scan (ofBlock inBlock) text).dropLast, l.after.isQuoted = false) (n : Nat) :
    ofLines s (tally s seen, inBlock) ((lines text).take n) =
      let scanned := (scan (ofBlock inBlock) text).take n
      (tally s (seen ++ scanned.map ScannedLine.kind),
        scanned.getLast?.elim inBlock (·.after == .blockComment)) := by
  dsimp only
  have hblock (b : Bool) : ((ofBlock b).mode == .blockComment) = b := by cases b <;> rfl
  induction text using lines_induction generalizing seen inBlock n with
  | empty => simp [scan, lines, ofLines]
  | last line hline hne =>
    -- Nothing is asked of the end of the last line: no line is classified behind it.
    rw [lines_last hline hne, scan_last hline hne]
    cases n with
    | zero => simp [ofLines]
    | succ n =>
      rw [List.take_succ_cons, List.take_succ_cons, ofLines_cons, List.take_nil, List.take_nil]
      simp [ofLines, ScannedLine.kind, hblock]
  | line line rest hline ih =>
    rw [scan_line hline] at hquoted ⊢
    rw [lines_line hline]
    cases n with
    | zero => simp [ofLines]
    | succ n =>
      rw [List.take_succ_cons, List.take_succ_cons, ofLines_cons]
      cases rest with
      | nil => simp [ofLines, ScannedLine.kind, hblock, scan, lines]
      | cons c cs =>
        rw [List.dropLast_cons_of_ne_nil (scan_ne_nil _ (List.cons_ne_nil c cs)),
          List.forall_mem_cons, newLine_after hquoted.1] at hquoted
        rw [ih _ _ hquoted.2, newLine_after hquoted.1]
        generalize (scan _ (c :: cs)).take n = more
        cases hlast : more.getLast? <;>
          simp [List.getLast?_cons, hlast, ScannedLine.kind, hblock]

end Breakdown

/-- The lines of a text are counted, and its block comments followed, as the reader of the whole
text reads them. No string may go on into another line: each line is classified as if it began
outside of all strings. -/
theorem breakdown_refines_scan (s : Settings) (text : String)
    (hquoted : ∀ l ∈ (Scanner.start.scan text.toList).dropLast, l.after.isQuoted = false) :
    (Scanner.start.scan text.toList).map (·.marks.map Prod.fst) = lines text.toList ∧
    (∀ n, Breakdown.ofLines s (.empty, false) ((lines text.toList).take n) =
      (Breakdown.tally s (((Scanner.start.scan text.toList).take n).map ScannedLine.kind),
        ((Scanner.start.scan text.toList).take n).getLast?.any (·.after == .blockComment))) ∧
    Breakdown.ofText s text =
      Breakdown.tally s ((Scanner.start.scan text.toList).map ScannedLine.kind) := by
  have htake (n) : Breakdown.ofLines s (.empty, false) ((lines text.toList).take n) =
      (Breakdown.tally s (((Scanner.start.scan text.toList).take n).map ScannedLine.kind),
        ((Scanner.start.scan text.toList).take n).getLast?.any (·.after == .blockComment)) := by
    have hprefix := Breakdown.ofLines_take s [] false text.toList hquoted n
    have hany (l : Option ScannedLine) : l.elim false (·.after == .blockComment) =
        l.any (·.after == .blockComment) := by cases l <;> rfl
    dsimp only at hprefix
    rw [List.nil_append, hany] at hprefix
    exact hprefix
  have hmarks := Scanner.map_marks_scan Scanner.start text.toList
  refine ⟨hmarks, htake, ?_⟩
  have hall := htake (lines text.toList).length
  have hlength : (lines text.toList).length = (Scanner.start.scan text.toList).length := by
    rw [← hmarks, List.length_map]
  rw [List.take_length, hlength, List.take_length] at hall
  rw [Breakdown.ofText, hall]

theorem breakdown_refines_scan_mixed :
    let text := "# a\n/* 'b\n\n * */ import c from \"//d\"\ne = '\\'' /*/ f\n# */ #g\n"
    let kinds : List LineKind := [.comment, .comment, .comment, .importing, .code, .code]
    Breakdown.ofText .default text = Breakdown.tally .default kinds := by
  intro text kinds
  have hquoted : ∀ l ∈ (Scanner.start.scan text.toList).dropLast, l.after.isQuoted = false := by
    decide +kernel
  have hkinds : (Scanner.start.scan text.toList).map ScannedLine.kind = kinds := by decide +kernel
  rw [← hkinds]
  exact (breakdown_refines_scan .default text hquoted).2.2

end CodeAtlas.Size
