import CodeAtlas.Size.Lines
import Mathlib.Data.List.TakeWhile

/-! One reader for a whole text, which goes from character to character and looks one character
ahead. It knows strings and comments and no other marks, so for it a slash never opens a regular
expression, and it carries whatever it is inside of from one line to the next. A line whose first
character outside of block comments is a star, or a `#` that starts no name, is a comment up to its
end. -/

namespace CodeAtlas.Size

inductive Mode where
  | code
  | quoted (quote : Char)
  /-- Behind a backslash. -/
  | escaped (quote : Char)
  | lineComment
  | blockComment
  /-- Before the second character of the mark that opens a block comment. -/
  | opening
  /-- Before the second character of the mark that closes one. -/
  | closing
  deriving DecidableEq, Repr

namespace Mode

def isQuoted : Mode → Bool
  | quoted _ | escaped _ => true
  | _ => false

def isComment : Mode → Bool
  | lineComment | blockComment | opening | closing => true
  | _ => false

def isPending : Mode → Bool
  | opening | closing => true
  | _ => false

end Mode

structure Scanner where
  mode : Mode
  /-- Whether the line has only had blanks and comments so far. -/
  fresh : Bool
  deriving DecidableEq, Repr

/-- A line with what the reader was inside of at its start and at its end, and for each of its
characters whether it belongs to a comment. -/
structure ScannedLine where
  before : Mode
  marks : List (Char × Bool)
  after : Mode
  deriving DecidableEq, Repr

/-- Whether a character is neither code nor quoted. -/
def isVoid (mark : Char × Bool) : Bool := Text.isSpace mark.1 || mark.2

/-- What marks say that a line holds. It is only blank if no comment has begun before them. -/
def kindOf (begun : Bool) (marks : List (Char × Bool)) : LineKind :=
  if !begun && marks.all (fun mark => Text.isSpace mark.1) then .blank
  else if marks.all isVoid then .comment
  else if Line.isImport (Text.trimEnd ((marks.dropWhile isVoid).map Prod.fst)) then .importing
  else .code

def ScannedLine.kind (l : ScannedLine) : LineKind := kindOf (l.before == .blockComment) l.marks

namespace Scanner

def start : Scanner := ⟨.code, true⟩

/-- Whether a character makes a comment of the line that it is the first of. -/
def opensLine (c : Char) (next : Option Char) : Bool :=
  c = '*' || (c = '#' && next.all fun d => d = '!' || Text.isSpace d)

/-- What the reader is inside of behind a character of a line. -/
def enter (s : Scanner) (c : Char) (next : Option Char) : Mode :=
  match s.mode with
  | .code =>
    if (s.fresh && opensLine c next) || (c = '/' && next == some '/') then .lineComment
    else if c = '/' && next == some '*' then .opening
    else if Line.isQuote c then .quoted c
    else .code
  | .quoted q => if c = '\\' then .escaped q else if c = q then .code else .quoted q
  | .escaped q => .quoted q
  | .lineComment => .lineComment
  | .blockComment => if c = '*' && next == some '/' then .closing else .blockComment
  | .opening => .blockComment
  | .closing => .code

/-- The marks that open and close a comment belong to it. -/
def inComment (s : Scanner) (c : Char) (next : Option Char) : Bool :=
  s.mode == .closing || (s.enter c next).isComment

def step (s : Scanner) (c : Char) (next : Option Char) : Scanner :=
  ⟨s.enter c next, s.fresh && (Text.isSpace c || s.inComment c next)⟩

/-- Everything but a line comment goes on in the next line. -/
def newLine (s : Scanner) : Scanner :=
  match s.mode with
  | .lineComment => ⟨.code, true⟩
  | .escaped q => ⟨.quoted q, true⟩
  | mode => ⟨mode, true⟩

/-- Puts a character in front of the line that goes on behind it, if it does. -/
def consMark (s t : Scanner) (mark : Char × Bool) : List ScannedLine → List ScannedLine
  | [] => [⟨s.mode, [mark], t.mode⟩]
  | line :: more => ⟨s.mode, mark :: line.marks, line.after⟩ :: more

/-- Reads a text to its end. -/
def scan : Scanner → List Char → List ScannedLine
  | _, [] => []
  | s, c :: cs =>
    if c = '\n' then ⟨s.mode, [], s.mode⟩ :: scan s.newLine cs
    else
      let t := s.step c cs.head?
      consMark s t (c, s.inComment c cs.head?) (scan t cs)

/-- The marks of a piece of a line. -/
def marks : Scanner → List Char → List (Char × Bool)
  | _, [] => []
  | s, c :: cs => (c, s.inComment c cs.head?) :: marks (s.step c cs.head?) cs

/-- The reader behind a piece of a line. -/
def after : Scanner → List Char → Scanner
  | s, [] => s
  | s, c :: cs => after (s.step c cs.head?) cs

variable {s : Scanner} {line rest : List Char}

theorem map_fst_marks (s : Scanner) (line : List Char) : (marks s line).map Prod.fst = line := by
  induction line generalizing s with
  | nil => rfl
  | cons c cs ih => rw [marks, List.map_cons, ih]

theorem read_cons {t : Scanner} {c : Char} (cs : List Char) {inComment : Bool}
    (h : s.step c cs.head? = t ∧ s.inComment c cs.head? = inComment) :
    marks s (c :: cs) = (c, inComment) :: marks t cs ∧ after s (c :: cs) = after t cs := by
  rw [marks, after, h.1, h.2]
  exact ⟨rfl, rfl⟩

/-- That a line ends is all that is seen ahead of its end. -/
theorem enter_newline (s : Scanner) (c : Char) : s.enter c (some '\n') = s.enter c none := by
  have hopens : opensLine c (some '\n') = opensLine c none := rfl
  rw [enter, enter, hopens]
  rfl

theorem inComment_newline (s : Scanner) (c : Char) :
    s.inComment c (some '\n') = s.inComment c none := by
  rw [inComment, inComment, enter_newline]

theorem step_newline (s : Scanner) (c : Char) : s.step c (some '\n') = s.step c none := by
  rw [step, step, enter_newline, inComment_newline]

theorem scan_line (hline : '\n' ∉ line) : scan s (line ++ '\n' :: rest) =
    ⟨s.mode, marks s line, (after s line).mode⟩ :: scan (after s line).newLine rest := by
  induction line generalizing s with
  | nil => rfl
  | cons c cs ih =>
    obtain ⟨hc, hcs⟩ := not_or.mp (mt List.mem_cons.mpr hline)
    have hstep : s.step c (cs ++ '\n' :: rest).head? = s.step c cs.head? ∧
        s.inComment c (cs ++ '\n' :: rest).head? = s.inComment c cs.head? := by
      cases cs with
      | nil => exact ⟨step_newline s c, inComment_newline s c⟩
      | cons d ds => exact ⟨rfl, rfl⟩
    rw [List.cons_append, scan, if_neg (Ne.symm hc), hstep.1, hstep.2]
    dsimp only
    rw [ih hcs]
    rfl

theorem scan_last (hline : '\n' ∉ line) (hne : line ≠ []) :
    scan s line = [⟨s.mode, marks s line, (after s line).mode⟩] := by
  induction line generalizing s with
  | nil => exact absurd rfl hne
  | cons c cs ih =>
    obtain ⟨hc, hcs⟩ := not_or.mp (mt List.mem_cons.mpr hline)
    rw [scan, if_neg (Ne.symm hc)]
    cases cs with
    | nil => rfl
    | cons d ds =>
      dsimp only
      rw [ih hcs (List.cons_ne_nil d ds)]
      rfl

theorem scan_ne_nil (s : Scanner) {text : List Char} (hne : text ≠ []) : scan s text ≠ [] := by
  cases text with
  | nil => exact absurd rfl hne
  | cons c cs =>
    rw [scan]
    split
    · exact List.cons_ne_nil _ _
    · dsimp only
      cases scan (s.step c cs.head?) cs <;> exact List.cons_ne_nil _ _

end Scanner

end CodeAtlas.Size

namespace CodeAtlas.Text

variable {line rest : List Char}

theorem lines_line (hline : '\n' ∉ line) : lines (line ++ '\n' :: rest) = line :: lines rest := by
  induction line with
  | nil =>
    change consLine '\n' (lines rest) = _
    cases lines rest <;> rfl
  | cons c cs ih =>
    obtain ⟨hc, hcs⟩ := not_or.mp (mt List.mem_cons.mpr hline)
    change consLine c (lines (cs ++ '\n' :: rest)) = _
    rw [ih hcs, consLine, if_neg (Ne.symm hc)]

theorem lines_last (hline : '\n' ∉ line) (hne : line ≠ []) : lines line = [line] := by
  induction line with
  | nil => exact absurd rfl hne
  | cons c cs ih =>
    obtain ⟨hc, hcs⟩ := not_or.mp (mt List.mem_cons.mpr hline)
    change consLine c (lines cs) = _
    cases cs with
    | nil => exact if_neg (Ne.symm hc)
    | cons d ds => rw [ih hcs (List.cons_ne_nil d ds), consLine, if_neg (Ne.symm hc)]

/-- A text is empty, or a last line, or a line and what follows the line feed at its end. -/
theorem lines_induction {P : List Char → Prop} (empty : P [])
    (last : ∀ line, '\n' ∉ line → line ≠ [] → P line)
    (line : ∀ line rest, '\n' ∉ line → P rest → P (line ++ '\n' :: rest)) (text : List Char) :
    P text := by
  induction hlength : text.length using Nat.strong_induction_on generalizing text with
  | _ n ih =>
    have hfront : '\n' ∉ text.takeWhile (· ≠ '\n') := fun hmem => by
      simpa using List.mem_takeWhile_imp hmem
    cases hback : text.dropWhile (· ≠ '\n') with
    | nil =>
      have htext : text.takeWhile (· ≠ '\n') = text := by
        rw [← List.append_nil (text.takeWhile _), ← hback, List.takeWhile_append_dropWhile]
      cases text with
      | nil => exact empty
      | cons c cs => exact last _ (htext ▸ hfront) (List.cons_ne_nil c cs)
    | cons c rest =>
      have hc : c = '\n' := by
        have hhead := List.head?_dropWhile_not (fun c => decide (c ≠ '\n')) text
        rw [hback] at hhead
        simpa using hhead
      subst hc
      have htext : text.takeWhile (· ≠ '\n') ++ '\n' :: rest = text := by
        rw [← hback, List.takeWhile_append_dropWhile]
      rw [← htext] at hlength ⊢
      refine line _ _ hfront (ih rest.length ?_ rest rfl)
      rw [← hlength, List.length_append, List.length_cons]
      omega

end CodeAtlas.Text

namespace CodeAtlas.Size.Scanner

theorem map_marks_scan (s : Scanner) (text : List Char) :
    (s.scan text).map (·.marks.map Prod.fst) = Text.lines text := by
  induction text using Text.lines_induction generalizing s with
  | empty => rfl
  | last line hline hne =>
    rw [scan_last hline hne, Text.lines_last hline hne, List.map_singleton, map_fst_marks]
  | line line rest hline ih =>
    rw [scan_line hline, Text.lines_line hline, List.map_cons, map_fst_marks, ih]

end CodeAtlas.Size.Scanner
