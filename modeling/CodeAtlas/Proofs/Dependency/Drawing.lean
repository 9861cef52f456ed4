import CodeAtlas.Dependency.View
import CodeAtlas.Proofs.Dependency.Edits

/-! What a drawing tells of a graph. A quoted text shows where it ends whatever stands in it, so a
line shows where it ends, and a drawing falls into its lines in one way only. -/

namespace CodeAtlas.Dependency

theorem Group.color_injective : Function.Injective Group.color := by
  intro a b h
  cases a <;> cases b <;> first | rfl | exact absurd h (by decide)

namespace Dot

section Quotes

variable {c d : Char} {xs ys : List Char} {s t x y : String}

theorem escapeChar_cases (c : Char) :
    escapeChar c = ['\\', c] ∨ (c ≠ '\\' ∧ c ≠ '\"') ∧ escapeChar c = [c] := by
  unfold escapeChar
  split
  · exact .inl rfl
  · next hmark => exact .inr ⟨by simpa using hmark, rfl⟩

theorem escapeChar_append_ne : escapeChar c ++ xs ≠ '\"' :: ys := by
  intro h
  rcases escapeChar_cases c with hc | ⟨hplain, hc⟩
  · rw [hc] at h
    exact absurd (List.cons.inj h).1 (by decide)
  · rw [hc] at h
    exact hplain.2 (List.cons.inj h).1

theorem escapeChar_append_inj (h : escapeChar c ++ xs = escapeChar d ++ ys) : c = d ∧ xs = ys := by
  rcases escapeChar_cases c with hc | ⟨hcplain, hc⟩ <;>
    rcases escapeChar_cases d with hd | ⟨hdplain, hd⟩ <;>
    rw [hc, hd] at h
  · exact List.cons.inj (List.cons.inj h).2
  · exact absurd (List.cons.inj h).1.symm hdplain.1
  · exact absurd (List.cons.inj h).1 hcplain.1
  · exact List.cons.inj h

theorem escape_append_inj {cs ds : List Char}
    (h : cs.flatMap escapeChar ++ '\"' :: xs = ds.flatMap escapeChar ++ '\"' :: ys) :
    cs = ds ∧ xs = ys := by
  induction cs generalizing ds with
  | nil =>
    cases ds with
    | nil => exact ⟨rfl, (List.cons.inj h).2⟩
    | cons d ds =>
      rw [List.flatMap_cons, List.append_assoc] at h
      exact absurd h.symm escapeChar_append_ne
  | cons c cs ih =>
    rw [List.flatMap_cons, List.append_assoc] at h
    cases ds with
    | nil => exact absurd h escapeChar_append_ne
    | cons d ds =>
      rw [List.flatMap_cons, List.append_assoc] at h
      obtain ⟨rfl, hrest⟩ := escapeChar_append_inj h
      obtain ⟨rfl, hxy⟩ := ih hrest
      exact ⟨rfl, hxy⟩

theorem toList_quote_append (s x : String) :
    (quote s ++ x).toList = '\"' :: (s.toList.flatMap escapeChar ++ '\"' :: x.toList) := by
  simp [quote]

theorem quote_append_inj (h : quote s ++ x = quote t ++ y) : s = t ∧ x = y := by
  have hlist := congrArg String.toList h
  rw [toList_quote_append, toList_quote_append] at hlist
  obtain ⟨hs, hx⟩ := escape_append_inj (List.cons.inj hlist).2
  exact ⟨String.toList_inj.mp hs, String.toList_inj.mp hx⟩

end Quotes

/-- What a line of a drawing is about. -/
inductive Line where
  | node (n : ViewNode)
  | edge (ends : String × String)

namespace Line

def text : Line → String
  | node n => nodeLine n
  | edge (source, target) => edgeLine ⟨source, target, 0⟩

def node? : Line → Option ViewNode
  | node n => some n
  | edge _ => none

def ends? : Line → Option (String × String)
  | node _ => none
  | edge ends => some ends

variable {l m : Line} {n n' : ViewNode} {e f : String × String} {x y : String}

theorem text_node_append (n : ViewNode) (x : String) :
    (node n).text ++ x = "  " ++ (quote n.path ++ (" [label=" ++ (quote n.label ++
      (", fillcolor=" ++ (quote n.group.color ++ ("];\n" ++ x)))))) := by
  simp only [text, nodeLine, String.append_assoc]

theorem text_edge_append (e : String × String) (x : String) :
    (edge e).text ++ x = "  " ++ (quote e.1 ++ (" -> " ++ (quote e.2 ++ (";\n" ++ x)))) := by
  simp only [text, edgeLine, String.append_assoc]

theorem node_append_inj (h : (node n).text ++ x = (node n').text ++ y) : n = n' ∧ x = y := by
  rw [text_node_append, text_node_append, String.append_right_inj] at h
  obtain ⟨hpath, hbehindPath⟩ := quote_append_inj h
  obtain ⟨hlabel, hbehindLabel⟩ := quote_append_inj ((String.append_right_inj _).mp hbehindPath)
  obtain ⟨hcolor, hend⟩ := quote_append_inj ((String.append_right_inj _).mp hbehindLabel)
  have hgroup : n.group = n'.group := Group.color_injective hcolor
  cases n
  cases n'
  subst hpath hlabel hgroup
  exact ⟨rfl, (String.append_right_inj _).mp hend⟩

theorem edge_append_inj (h : (edge e).text ++ x = (edge f).text ++ y) : e = f ∧ x = y := by
  rw [text_edge_append, text_edge_append, String.append_right_inj] at h
  obtain ⟨hsource, hbehindSource⟩ := quote_append_inj h
  obtain ⟨htarget, hend⟩ := quote_append_inj ((String.append_right_inj _).mp hbehindSource)
  exact ⟨Prod.ext hsource htarget, (String.append_right_inj _).mp hend⟩

/-- Behind the first quoted text there is a bracket in the one and an arrow in the other. -/
theorem node_append_ne_edge : (node n).text ++ x ≠ (edge e).text ++ y := by
  intro h
  rw [text_node_append, text_edge_append, String.append_right_inj] at h
  obtain ⟨-, hbehind⟩ := quote_append_inj h
  have hlist := congrArg String.toList hbehind
  simp at hlist

theorem text_append_inj (h : l.text ++ x = m.text ++ y) : l = m ∧ x = y := by
  cases l with
  | node n =>
    cases m with
    | node n' =>
      obtain ⟨rfl, hxy⟩ := node_append_inj h
      exact ⟨rfl, hxy⟩
    | edge f => exact absurd h node_append_ne_edge
  | edge e =>
    cases m with
    | node n' => exact absurd h.symm node_append_ne_edge
    | edge f =>
      obtain ⟨rfl, hxy⟩ := edge_append_inj h
      exact ⟨rfl, hxy⟩

theorem text_append_ne_closing : l.text ++ x ≠ closing := by
  intro h
  have hhead := congrArg (fun s => s.toList.head?) h
  cases l with
  | node n =>
    rw [text_node_append] at hhead
    simp [closing] at hhead
  | edge e =>
    rw [text_edge_append] at hhead
    simp [closing] at hhead

theorem join_append_closing_inj {ls ms : List Line}
    (h : String.join (ls.map text) ++ closing = String.join (ms.map text) ++ closing) :
    ls = ms := by
  induction ls generalizing ms with
  | nil =>
    cases ms with
    | nil => rfl
    | cons m ms =>
      rw [List.map_cons, String.join_cons, String.append_assoc] at h
      exact absurd h.symm text_append_ne_closing
  | cons l ls ih =>
    rw [List.map_cons, String.join_cons, String.append_assoc] at h
    cases ms with
    | nil => exact absurd h text_append_ne_closing
    | cons m ms =>
      rw [List.map_cons, String.join_cons, String.append_assoc] at h
      obtain ⟨rfl, hrest⟩ := text_append_inj h
      rw [ih hrest]

end Line

end Dot

namespace View

def lines (v : View) : List Dot.Line :=
  v.nodes.map .node ++ (v.edges.map Edge.ends).map .edge

theorem dot_eq (v : View) :
    v.dot = Dot.opening ++ (String.join (v.lines.map Dot.Line.text) ++ Dot.closing) := by
  have hnodes : (v.nodes.map Dot.Line.node).map Dot.Line.text = v.nodes.map Dot.nodeLine := by
    rw [List.map_map]
    rfl
  have hedges : ((v.edges.map Edge.ends).map Dot.Line.edge).map Dot.Line.text =
      v.edges.map Dot.edgeLine := by
    rw [List.map_map, List.map_map]
    rfl
  rw [dot, lines, List.map_append, hnodes, hedges, String.join_append]
  simp only [String.append_assoc]

theorem filterMap_node?_lines (v : View) : v.lines.filterMap Dot.Line.node? = v.nodes := by
  have hnodes : Dot.Line.node? ∘ Dot.Line.node = some := rfl
  have hedges : Dot.Line.node? ∘ Dot.Line.edge = fun _ => none := rfl
  rw [lines, List.filterMap_append, List.filterMap_map, List.filterMap_map, hnodes, hedges,
    List.filterMap_some, List.filterMap_none, List.append_nil]

theorem filterMap_ends?_lines (v : View) :
    v.lines.filterMap Dot.Line.ends? = v.edges.map Edge.ends := by
  have hnodes : Dot.Line.ends? ∘ Dot.Line.node = fun _ => none := rfl
  have hedges : Dot.Line.ends? ∘ Dot.Line.edge = some := rfl
  rw [lines, List.filterMap_append, List.filterMap_map, List.filterMap_map, hnodes, hedges,
    List.filterMap_some, List.filterMap_none, List.nil_append]

theorem lines_eq_iff {v w : View} : v.lines = w.lines ↔
    v.nodes = w.nodes ∧ v.edges.map Edge.ends = w.edges.map Edge.ends := by
  constructor
  · intro h
    rw [← filterMap_node?_lines, ← filterMap_ends?_lines, h]
    exact ⟨filterMap_node?_lines w, filterMap_ends?_lines w⟩
  · rintro ⟨hnodes, hedges⟩
    rw [lines, lines, hnodes, hedges]

end View

/-- Two graphs have the same drawing exactly if they have the same nodes to show, with labels and
groups, and the same pairs of nodes that an edge joins. -/
theorem Graph.dot_eq_dot_iff (g h : Graph) : g.dot = h.dot ↔
    g.view.nodes = h.view.nodes ∧ g.view.edges.map Edge.ends = h.view.edges.map Edge.ends := by
  rw [dot, dot, View.dot_eq, View.dot_eq, String.append_right_inj, ← View.lines_eq_iff]
  exact ⟨Dot.Line.join_append_closing_inj, fun hlines => by rw [hlines]⟩

end CodeAtlas.Dependency
