import CodeAtlas.Proofs.Grammar.Nodes
import Mathlib.Algebra.BigOperators.Group.List.Basic
import Mathlib.Algebra.Group.Nat.Defs
import Mathlib.Algebra.Group.Prod
import Mathlib.Data.List.TakeWhile

/-! What the nodes that come of a form are together. Each node counts as something, and a form has
one total for each way through its choices. So parts that exclude each other are told apart from
parts each of which may be missing. -/

namespace CodeAtlas.Grammar

variable {R : Type} {g : Rules R} {d : Dialect} {M : Type} [AddMonoid M]

/-- What nodes count as. Comments count as nothing. -/
structure Count (M : Type) [AddMonoid M] where
  of : Node → M
  /-- What all nodes of a kind and role count as, and of a text if one is given. -/
  known? : Kind → Option Role → Option String → Option M
  of_comment : ∀ n : Node, n.isComment = true → n.role = none → of n = 0
  of_known : ∀ (n : Node) (text? : Option String) (m : M), known? n.kind n.role text? = some m →
    (∀ t ∈ text?, n.text = t) → of n = m

variable (c : Count M)

namespace Count

def total (xs : List Node) : M := (xs.map c.of).sum

theorem total_append (xs ys : List Node) : c.total (xs ++ ys) = c.total xs + c.total ys := by
  unfold total
  rw [List.map_append, List.sum_append]

theorem total_singleton (n : Node) : c.total [n] = c.of n := add_zero _

theorem total_comments {xs : List Node} (hcomment : ∀ n ∈ xs, n.isComment = true)
    (hrole : ∀ n ∈ xs, n.role = none) : c.total xs = 0 := by
  induction xs with
  | nil => rfl
  | cons n xs ih =>
    rw [List.forall_mem_cons] at hcomment hrole
    rw [← List.singleton_append, c.total_append, c.total_singleton, ih hcomment.2 hrole.2,
      c.of_comment n hcomment.1 hrole.1, add_zero]

/-- Counts the nodes that pass a test. -/
def ofTest (p : Node → Bool) (known? : Kind → Option Role → Option String → Option Bool)
    (hcomment : ∀ n : Node, n.kind = .comment → n.role = none → p n = false)
    (hknown : ∀ (n : Node) (text? : Option String) (b : Bool),
      known? n.kind n.role text? = some b → (∀ t ∈ text?, n.text = t) → p n = b) : Count Nat where
  of n := (p n).toNat
  known? kind role text? := (known? kind role text?).map Bool.toNat
  of_comment n hn hrole := by rw [hcomment n (beq_iff_eq.mp hn) hrole, Bool.toNat_false]
  of_known n text? m hm htext := by
    obtain ⟨b, hb, rfl⟩ := Option.map_eq_some_iff.mp hm
    rw [hknown n text? b hb htext]

/-- Counts nodes in two ways at once. -/
def prod {N : Type} [AddMonoid N] (c : Count M) (c' : Count N) : Count (M × N) where
  of n := (c.of n, c'.of n)
  known? kind role text? :=
    match c.known? kind role text?, c'.known? kind role text? with
    | some m, some m' => some (m, m')
    | _, _ => none
  of_comment n hn hrole := by
    rw [c.of_comment n hn hrole, c'.of_comment n hn hrole]
    rfl
  of_known n text? m hm htext := by
    split at hm
    next m m' hm' hm'' =>
      cases hm
      rw [c.of_known n text? m hm' htext, c'.of_known n text? m' hm'' htext]
    · cases hm

theorem total_ofTest {p : Node → Bool}
    {known? : Kind → Option Role → Option String → Option Bool} (hcomment) (hknown)
    (xs : List Node) : (ofTest p known? hcomment hknown).total xs = xs.countP p := by
  induction xs with
  | nil => rfl
  | cons n xs ih =>
    rw [← List.singleton_append, total_append, total_singleton, ih, List.countP_append,
      List.countP_singleton]
    change (p n).toNat + _ = _
    cases p n <;> rfl

theorem total_prod {N : Type} [AddMonoid N] (c' : Count N) (xs : List Node) :
    (c.prod c').total xs = (c.total xs, c'.total xs) := by
  induction xs with
  | nil => rfl
  | cons n xs ih =>
    rw [← List.singleton_append, total_append, total_append, total_append, ih, total_singleton,
      total_singleton, total_singleton]
    rfl

/-- The totals of a single node that has been given a role. -/
def one? (role : Option Role) (kind : Kind) (text? : Option String) : Option (List M) :=
  if kind = .comment then some [0] else (c.known? kind role text?).map ([·])

end Count

variable {c}

section Nodes

variable {n : Node} {comments read : List Node} {role : Option Role} {kind : Kind}
variable {text? : Option String} {ms : List M}

theorem Count.total_mem_one? (hcomments : ∀ n ∈ comments, n.isComment = true)
    (hfree : ∀ n ∈ comments, n.role = none) (hkind : n.kind = kind) (hrole : n.role = none)
    (htext : ∀ t ∈ text?, n.text = t) (hms : c.one? role kind text? = some ms) :
    c.total (asLeft role (comments ++ [n])) ∈ ms := by
  subst hkind
  rw [asLeft_append, asLeft_comments role hcomments, c.total_append,
    c.total_comments hcomments hfree, zero_add]
  unfold Count.one? at hms
  split at hms
  next hcomment =>
    cases hms
    have hn : ∀ m ∈ [n], m.isComment = true := by
      intro m hm
      rw [List.mem_singleton.mp hm, Node.isComment, hcomment]
      rfl
    have hnone : c.of n = 0 := c.of_comment n (hn n (List.mem_singleton_self n)) hrole
    rw [asLeft_comments role hn, c.total_singleton, hnone]
    exact List.mem_singleton_self _
  next hcomment =>
    obtain ⟨m, hm, rfl⟩ := Option.map_eq_some_iff.mp hms
    rw [List.mem_singleton]
    cases role with
    | none =>
      rw [← hrole] at hm
      exact (c.total_singleton n).trans (c.of_known n text? m hm htext)
    | some r =>
      have hn : giveRole r [n] = [n.withRole r] := by
        have hnot : n.isComment = false := beq_eq_false_iff_ne.mpr hcomment
        simp [giveRole, hnot]
      change c.total (giveRole r [n]) = m
      rw [hn, c.total_singleton]
      exact c.of_known (n.withRole r) text? m hm htext

theorem Count.total_nil_mem : c.total (asLeft role []) ∈ [0] := by
  rw [asLeft_comments role fun _ hn => absurd hn List.not_mem_nil]
  exact List.mem_singleton_self _

theorem Count.total_gap_mem (h : ∀ n ∈ comments, n.IsLeaf .comment) :
    c.total (asLeft role comments) ∈ [0] := by
  have hcomments : ∀ n ∈ comments, n.isComment = true := fun n hn => beq_iff_eq.mpr (h n hn).kind
  rw [asLeft_comments role hcomments, c.total_comments hcomments fun n hn => (h n hn).role]
  exact List.mem_singleton_self _

theorem Count.total_token_mem (hcomments : ∀ n ∈ comments, n.IsLeaf .comment)
    (hleaf : n.IsLeaf kind) (htext : ∀ t ∈ text?, n.text = t)
    (hms : c.one? role kind text? = some ms) : c.total (asLeft role (comments ++ [n])) ∈ ms :=
  total_mem_one? (fun m hm => beq_iff_eq.mpr (hcomments m hm).kind)
    (fun m hm => (hcomments m hm).role) hleaf.kind hleaf.role htext hms

/-- Comments in front of a node are some of those that were read, so they have no role. -/
theorem Count.total_wraps_mem (hread : CommentsFree read) (hn : n.Wraps kind read)
    (hms : c.one? role kind none = some ms) :
    c.total (asLeft role (read.takeWhile Node.isComment ++ [n])) ∈ ms := by
  have hcomments : ∀ m ∈ read.takeWhile Node.isComment, m.isComment = true :=
    fun m hm => List.mem_takeWhile_imp hm
  refine total_mem_one? hcomments (fun m hm => ?_) hn.kind hn.role (by simp) hms
  exact hread m ((List.takeWhile_sublist _).subset hm) (hcomments m hm)

end Nodes

section Steps

variable {role : Option Role} {ms : List M}

/-- The totals of what one of some steps makes. -/
def stepTotals? (c : Count M) (role : Option Role) : List (Step R) → Option (List M)
  | [] => some []
  | .mk kind _ _ :: steps =>
    match c.one? role kind none, stepTotals? c role steps with
    | some ms, some ns => some (ms ++ ns)
    | _, _ => none

theorem stepTotals?_of_mem {kind : Kind} {left : Option Role} {f : Form R} {steps : List (Step R)}
    (hmem : .mk kind left f ∈ steps) (hms : stepTotals? c role steps = some ms) :
    ∃ ns, c.one? role kind none = some ns ∧ ns ⊆ ms := by
  induction steps generalizing ms with
  | nil => exact absurd hmem List.not_mem_nil
  | cons step steps ih =>
    obtain ⟨kind', left', f'⟩ := step
    rw [stepTotals?] at hms
    split at hms
    next ns ns' hns hns' =>
      cases hms
      rcases List.mem_cons.mp hmem with heq | hmem
      · cases heq
        exact ⟨ns, hns, List.subset_append_left ns ns'⟩
      · obtain ⟨ms, hms, hsub⟩ := ih hmem hns'
        exact ⟨ms, hms, List.subset_append_of_subset_right ns hsub⟩
    · cases hms

end Steps

/-- What a token says, if it can only say one thing. -/
def Lexeme.text? : Lexeme → Option String
  | .exactly text => some (String.ofList text)
  | _ => none

theorem Lexeme.eq_exactly_of_text? {lexeme : Lexeme} {text : String}
    (h : text ∈ lexeme.text?) : ∃ cs, lexeme = .exactly cs ∧ text = String.ofList cs := by
  cases lexeme with
  | exactly cs => exact ⟨cs, rfl, (Option.some.inj h).symm⟩
  | _ => cases h

variable [DecidableEq M]

mutual

/-- What the nodes that come of a form may be together once they have been given a role, if it is
known of all of them and of the rules. -/
def Form.totals? (c : Count M) (rules : R → Option Role → Option (List M)) (role : Option Role) :
    Form R → Option (List M)
  | .token _ kind | .node kind _ => c.one? role kind none
  | .raw lexeme kind => c.one? role kind lexeme.text?
  | .word text kind => c.one? role kind (some (String.ofList text))
  | .sign text _ => c.one? role .token (some (String.ofList text))
  | .sameLine | .newLine | .atEnd | .ahead _ | .notAhead _ => some [0]
  | .rule r => rules r role
  | .seq fs => totalsOfAll? c rules role fs
  | .oneOf fs => totalsOfAny? c rules role fs
  | .many f =>
    match f.totals? c rules role with
    | some ms => if ms.all (· = 0) then some [0] else none
    | none => none
  | .only _ f => f.totals? c rules role
  | .role r f => f.totals? c rules (some (role.getD r))
  | .grow f steps =>
    match f.totals? c rules role, stepTotals? c role steps with
    | some ms, some ns => some (ms ++ ns)
    | _, _ => none

def totalsOfAll? (c : Count M) (rules : R → Option Role → Option (List M)) (role : Option Role) :
    List (Form R) → Option (List M)
  | [] => some [0]
  | f :: fs =>
    match f.totals? c rules role, totalsOfAll? c rules role fs with
    | some ms, some ns => some (ms.flatMap fun m => ns.map (m + ·)).eraseDups
    | _, _ => none

def totalsOfAny? (c : Count M) (rules : R → Option Role → Option (List M)) (role : Option Role) :
    List (Form R) → Option (List M)
  | [] => some []
  | f :: fs =>
    match f.totals? c rules role, totalsOfAny? c rules role fs with
    | some ms, some ns => some (ms ++ ns).eraseDups
    | _, _ => none

end

variable {rules : R → Option Role → Option (List M)} {role : Option Role} {ms : List M}

theorem totalsOfAll?_cons {f : Form R} {fs : List (Form R)}
    (hms : totalsOfAll? c rules role (f :: fs) = some ms) :
    ∃ ns ns', f.totals? c rules role = some ns ∧ totalsOfAll? c rules role fs = some ns' ∧
      ∀ m ∈ ns, ∀ m' ∈ ns', m + m' ∈ ms := by
  rw [totalsOfAll?] at hms
  split at hms
  next ns ns' hns hns' =>
    cases hms
    refine ⟨ns, ns', hns, hns', fun m hm m' hm' => List.mem_eraseDups.mpr ?_⟩
    exact List.mem_flatMap.mpr ⟨m, hm, List.mem_map_of_mem hm'⟩
  · cases hms

theorem totalsOfAny?_of_mem {f : Form R} {fs : List (Form R)} (hmem : f ∈ fs)
    (hms : totalsOfAny? c rules role fs = some ms) :
    ∃ ns, f.totals? c rules role = some ns ∧ ns ⊆ ms := by
  induction fs generalizing ms with
  | nil => exact absurd hmem List.not_mem_nil
  | cons f' fs ih =>
    rw [totalsOfAny?] at hms
    split at hms
    next ns ns' hns hns' =>
      cases hms
      have hboth : ns ⊆ (ns ++ ns').eraseDups ∧ ns' ⊆ (ns ++ ns').eraseDups := by
        simp only [List.subset_def, List.mem_eraseDups, List.mem_append]
        exact ⟨fun hm => .inl hm, fun hm => .inr hm⟩
      rcases List.mem_cons.mp hmem with rfl | hmem
      · exact ⟨ns, hns, hboth.1⟩
      · obtain ⟨ks, hks, hsub⟩ := ih hmem hns'
        exact ⟨ks, hks, List.Subset.trans hsub hboth.2⟩
    · cases hms

/-- A total of many is only known if no round adds to it. -/
theorem totals?_many {f : Form R} (hms : (Form.many f).totals? c rules role = some ms) :
    ms = [0] ∧ ∃ ns, f.totals? c rules role = some ns ∧ ∀ m ∈ ns, m = 0 := by
  rw [Form.totals?] at hms
  split at hms
  next ns hns =>
    split at hms
    next hzero =>
      cases hms
      exact ⟨rfl, ns, hns, fun m hm => of_decide_eq_true (List.all_eq_true.mp hzero m hm)⟩
    · cases hms
  · cases hms

theorem totals?_grow {f : Form R} {steps : List (Step R)}
    (hms : (Form.grow f steps).totals? c rules role = some ms) :
    ∃ ns ns', f.totals? c rules role = some ns ∧ stepTotals? c role steps = some ns' ∧
      ns ⊆ ms ∧ ns' ⊆ ms := by
  rw [Form.totals?] at hms
  split at hms
  next ns ns' hns hns' =>
    cases hms
    exact ⟨ns, ns', hns, hns', List.subset_append_left ns ns', List.subset_append_right ns ns'⟩
  · cases hms

/-- Whether what is said of the totals of rules is true of their forms. -/
def RulesTotal (g : Rules R) (c : Count M) (rules : R → Option Role → Option (List M)) : Prop :=
  ∀ r role ms, rules r role = some ms → ∃ ns, (g r).totals? c rules role = some ns ∧ ns ⊆ ms

/-- The totals of a form are those of what comes of it. -/
theorem Yields.total_mem {form : Form R} {xs : List Node} (h : Yields g d form xs)
    (hrules : RulesTotal g c rules) (hms : form.totals? c rules role = some ms) :
    c.total (asLeft role xs) ∈ ms := by
  induction h generalizing role ms with
  | token hc hl =>
    rw [Form.totals?] at hms
    exact Count.total_token_mem hc hl (by simp) hms
  | @raw lexeme _ leaf hl htext =>
    rw [Form.totals?] at hms
    change c.total (asLeft role ([] ++ [leaf])) ∈ ms
    refine Count.total_token_mem (by simp) hl (fun t ht => ?_) hms
    obtain ⟨cs, hexactly, rfl⟩ := Lexeme.eq_exactly_of_text? ht
    exact htext cs hexactly
  | word hc hl htext | sign hc hl htext =>
    rw [Form.totals?] at hms
    refine Count.total_token_mem hc hl (fun t ht => ?_) hms
    rw [htext]
    exact Option.some.inj ht
  | sameLine | newLine | ahead | notAhead =>
    rw [Form.totals?] at hms
    cases hms
    exact Count.total_nil_mem
  | atEnd hc =>
    rw [Form.totals?] at hms
    cases hms
    exact Count.total_gap_mem hc
  | rule _ ih =>
    rw [Form.totals?] at hms
    obtain ⟨ns, hns, hsub⟩ := hrules _ _ _ hms
    exact hsub (ih hns)
  | seqNil =>
    rw [Form.totals?, totalsOfAll?] at hms
    cases hms
    exact Count.total_nil_mem
  | seqCons _ _ ihf ihfs =>
    rw [Form.totals?] at hms
    obtain ⟨ns, ns', hns, hns', hsum⟩ := totalsOfAll?_cons hms
    rw [asLeft_append, c.total_append]
    -- What is left of a sequence is one itself.
    exact hsum _ (ihf hns) _ (ihfs (by rwa [Form.totals?]))
  | oneOf hmem _ ih =>
    rw [Form.totals?] at hms
    obtain ⟨ns, hns, hsub⟩ := totalsOfAny?_of_mem hmem hms
    exact hsub (ih hns)
  | manyNil =>
    obtain ⟨rfl, -⟩ := totals?_many hms
    exact Count.total_nil_mem
  | manyCons _ _ ihf ihmore =>
    obtain ⟨-, ns, hns, hzero⟩ := totals?_many hms
    rw [asLeft_append, c.total_append, hzero _ (ihf hns), zero_add]
    exact ihmore hms
  | only _ _ ih =>
    rw [Form.totals?] at hms
    exact ih hms
  | node hf hn _ =>
    rw [Form.totals?] at hms
    exact Count.total_wraps_mem hf.commentsFree hn hms
  | role _ ih =>
    rw [Form.totals?] at hms
    rw [asLeft_giveRole]
    exact ih hms
  | first _ ih =>
    obtain ⟨ns, -, hns, -, hsub, -⟩ := totals?_grow hms
    exact hsub (ih hns)
  | @step f steps kind left f' xs ys n hxs hmem hys hn _ _ =>
    obtain ⟨-, ns, -, hns, -, hsub⟩ := totals?_grow hms
    obtain ⟨ks, hks, hsub'⟩ := stepTotals?_of_mem hmem hns
    have hread : CommentsFree (asLeft left xs ++ ys) :=
      (hxs.commentsFree.asLeft left).append hys.commentsFree
    exact hsub (hsub' (Count.total_wraps_mem hread hn hks))

end CodeAtlas.Grammar
