import ContractFlow.CallGraph
import ContractFlow.Flow.Graph

/-!
Drawings in the DOT language can be told apart by their texts. A text is taken apart from the left:
two writings settle a statement if it holds whenever they begin the same text, and the text goes on
alike behind them (`Drawing.Settles`). Writings one after another are settled part by part
(`Settles.append`), a list up to its end by its elements (`Settles.flatMap`). A quoted text is a
list of characters up to a quote, and a drawing is a list of nodes, which ends where an edge or an
empty line begins, and a list of edges.

Main statement: `Drawing.dot_eq_iff`. A text is drawn by one list of nodes and one list of edges,
whatever stands in them; only colors are written as they are, so there must be no quote in them.
-/

namespace ContractFlow

namespace Drawing

/-- Where the two writings begin the same text, the statement holds and the text goes on alike. -/
def Settles (w w' : List Char) (p : Prop) : Prop :=
  ∀ rest rest', w ++ rest = w' ++ rest' → p ∧ rest = rest'

namespace Settles

variable {w w' u u' : List Char} {p q : Prop}

theorem refl (w : List Char) : Settles w w True :=
  fun _ _ h => ⟨trivial, List.append_cancel_left h⟩

theorem imp (h : Settles w w' p) (hpq : p → q) : Settles w w' q :=
  fun rest rest' heq => (h rest rest' heq).imp_left hpq

theorem symm (h : Settles w w' p) : Settles w' w p :=
  fun rest rest' heq => (h rest' rest heq.symm).imp_right Eq.symm

theorem of_ne {c d : Char} (h : c ≠ d) (w w' : List Char) (p : Prop) :
    Settles (c :: w) (d :: w') p :=
  fun _ _ heq => absurd (List.cons.inj heq).1 h

/-- Writings one after another are settled from the left. -/
theorem append (h : Settles w w' p) (h' : Settles u u' q) :
    Settles (w ++ u) (w' ++ u') (p ∧ q) := by
  intro rest rest' heq
  rw [List.append_assoc, List.append_assoc] at heq
  obtain ⟨hp, heq⟩ := h _ _ heq
  obtain ⟨hq, heq⟩ := h' _ _ heq
  exact ⟨⟨hp, hq⟩, heq⟩

theorem append_left (w : List Char) (h : Settles u u' p) : Settles (w ++ u) (w ++ u') p :=
  ((refl w).append h).imp And.right

theorem append_right (h : Settles w w' p) (u : List Char) : Settles (w ++ u) (w' ++ u) p :=
  (h.append (refl u)).imp And.left

/-- Writings that never begin the same text do not do so with more behind them. -/
theorem append_never (h : Settles w w' False) (u u' : List Char) (p : Prop) :
    Settles (w ++ u) (w' ++ u') p := by
  intro rest rest' heq
  rw [List.append_assoc, List.append_assoc] at heq
  exact (h _ _ heq).1.elim

section Lists

variable {α β : Type} (key : α → β) {write : α → List Char} {l m : List α}

/-- Lists of writings are settled element by element, if what closes one list does not begin like an
element of the other. -/
theorem flatMap (hwrite : ∀ a ∈ l, ∀ b ∈ m, Settles (write a) (write b) (key a = key b))
    (hl : ∀ a ∈ l, Settles (write a) u' False) (hm : ∀ b ∈ m, Settles (write b) u False)
    (hclose : Settles u u' p) :
    Settles (l.flatMap write ++ u) (m.flatMap write ++ u') (l.map key = m.map key ∧ p) := by
  induction l generalizing m with
  | nil =>
    cases m with
    | nil => exact hclose.imp fun hp => ⟨rfl, hp⟩
    | cons b m =>
      rw [List.flatMap_cons, List.append_assoc]
      have hnever := (hm b List.mem_cons_self).symm.append_never [] (m.flatMap write ++ u')
      rw [List.append_nil] at hnever
      exact hnever _
  | cons a l ih =>
    obtain ⟨ha, hl⟩ := List.forall_mem_cons.mp hl
    rw [List.flatMap_cons, List.append_assoc]
    cases m with
    | nil =>
      have hnever := ha.append_never (l.flatMap write ++ u) []
      rw [List.append_nil] at hnever
      exact hnever _
    | cons b m =>
      obtain ⟨-, hm⟩ := List.forall_mem_cons.mp hm
      have hrest := ih (fun a ha b hb => hwrite a (List.mem_cons_of_mem _ ha) b
        (List.mem_cons_of_mem _ hb)) hl hm
      rw [List.flatMap_cons, List.append_assoc]
      refine ((hwrite a List.mem_cons_self b List.mem_cons_self).append hrest).imp ?_
      rintro ⟨hkey, hkeys, hp⟩
      exact ⟨List.cons_eq_cons.mpr ⟨hkey, hkeys⟩, hp⟩

end Lists

end Settles

/-! ## Quoted texts -/

/-- What is written character by character up to a quote is settled by the characters. -/
theorem settles_quoted {code : Char → List Char} {s t : List Char}
    (hcode : ∀ c ∈ s, ∀ d ∈ t, Settles (code c) (code d) (c = d))
    (hs : ∀ c ∈ s, Settles (code c) ['"'] False) (ht : ∀ d ∈ t, Settles (code d) ['"'] False) :
    Settles (s.flatMap code ++ ['"']) (t.flatMap code ++ ['"']) (s = t) := by
  have hlists := Settles.flatMap id hcode hs ht (.refl ['"'])
  refine hlists.imp ?_
  rintro ⟨h, -⟩
  rwa [List.map_id, List.map_id] at h

/-- A character is written as it is, or as another one behind a backslash. -/
def marked (mark : Char → Option Char) (c : Char) : List Char :=
  match mark c with
  | some d => ['\\', d]
  | none => [c]

/-- A backslash never stands alone and a quote never stands without one, so a quoted text ends where
it is closed. -/
theorem settles_marked {mark : Char → Option Char}
    (hinj : ∀ c d x, mark c = some x → mark d = some x → c = d)
    (hbackslash : mark '\\' ≠ none) (hquote : mark '"' ≠ none) (s t : List Char) :
    Settles (s.flatMap (marked mark) ++ ['"']) (t.flatMap (marked mark) ++ ['"']) (s = t) := by
  apply settles_quoted
  all_goals
    intros
    unfold Settles marked
    grind

def textMark (c : Char) : Option Char := if c = '\\' ∨ c = '"' then some c else none

def labelMark (c : Char) : Option Char := if c = '\n' then some 'l' else textMark c

theorem escape_eq (s : List Char) : escape s = s.flatMap (marked textMark) := by
  refine congrArg (s.flatMap ·) (funext fun c => ?_)
  unfold marked textMark
  grind

theorem breakLines_escape_eq (s : List Char) :
    breakLines (escape s) = s.flatMap (marked labelMark) := by
  rw [breakLines, escape, List.flatMap_assoc]
  refine congrArg (s.flatMap ·) (funext fun c => ?_)
  unfold marked labelMark textMark
  grind

theorem toList_quote (s : List Char) : (quote s).toList = ['"'] ++ (s ++ ['"']) := by
  simp [quote]

theorem settles_quoteText (s t : String) :
    Settles (quoteText s).toList (quoteText t).toList (s = t) := by
  rw [quoteText, quoteText, toList_quote, toList_quote, escape_eq, escape_eq]
  refine (Settles.append_left ['"'] (settles_marked ?_ ?_ ?_ _ _)).imp String.toList_inj.mp
  all_goals
    unfold textMark
    grind

theorem settles_quoteText_ne {c : Char} (hc : '"' ≠ c) (s : String) (w w' : List Char) :
    Settles ((quoteText s).toList ++ w) (c :: w') False := by
  rw [quoteText, toList_quote]
  exact .of_ne hc _ _ _

/-- The letter of a line break is told from the same letter behind a backslash of the label, which
is written twice. -/
theorem settles_label (s t : String) : Settles (quote (breakLines (escape s.toList))).toList
    (quote (breakLines (escape t.toList))).toList (s = t) := by
  rw [toList_quote, toList_quote, breakLines_escape_eq, breakLines_escape_eq]
  refine (Settles.append_left ['"'] (settles_marked ?_ ?_ ?_ _ _)).imp String.toList_inj.mp
  all_goals
    unfold labelMark textMark
    grind

theorem settles_unquoted {s t : String} (hs : '"' ∉ s.toList) (ht : '"' ∉ t.toList) :
    Settles (s.toList ++ ['"']) (t.toList ++ ['"']) (s = t) := by
  rw [← List.flatMap_singleton' s.toList, ← List.flatMap_singleton' t.toList]
  refine (settles_quoted ?_ ?_ ?_).imp String.toList_inj.mp
  all_goals
    intros
    unfold Settles
    grind

/-! ## Nodes and edges -/

/-- A node with the color that it is drawn in. -/
def Node.filled (n : Node) : Node := { n with fillColor := some (n.fillColor.getD "white") }

/-- There is no quote in the color of a node. -/
def Node.Unquoted (n : Node) : Prop := ∀ color ∈ n.fillColor, '"' ∉ color.toList

theorem Node.Unquoted.getD {n : Node} (h : n.Unquoted) :
    '"' ∉ (n.fillColor.getD "white").toList := by
  cases hcolor : n.fillColor with
  | none => decide
  | some color => exact h color hcolor

theorem Node.toList_dot (n : Node) :
    n.dot.toList = (quoteText n.id).toList ++ (" [shape=\"box\", label=".toList ++
    ((quote (breakLines (escape n.label.toList))).toList ++
      (", style=\"filled\", fillcolor=\"".toList ++
      (((n.fillColor.getD "white").toList ++ ['"']) ++ "];".toList)))) := by
  have hend : "\"];".toList = ['"'] ++ "];".toList := rfl
  simp only [Node.dot, String.toList_append, hend, List.append_assoc]

theorem Node.settles_dot {n m : Node} (hn : n.Unquoted) (hm : m.Unquoted) :
    Settles n.dot.toList m.dot.toList (n.filled = m.filled) := by
  have hcolor := (settles_unquoted hn.getD hm.getD).append_right "];".toList
  have hlabel := (settles_label n.label m.label).append
    (hcolor.append_left ", style=\"filled\", fillcolor=\"".toList)
  have hnode :=
    (settles_quoteText n.id m.id).append (hlabel.append_left " [shape=\"box\", label=".toList)
  rw [Node.toList_dot, Node.toList_dot]
  refine hnode.imp ?_
  rintro ⟨hid, hlabel, hcolor⟩
  simp only [Node.filled, hid, hlabel, hcolor]

theorem Node.settles_dot_ne (n : Node) {c : Char} (hc : '"' ≠ c) (w : List Char) :
    Settles n.dot.toList (c :: w) False := by
  rw [Node.toList_dot]
  exact settles_quoteText_ne hc _ _ _

/-- What is written of an edge behind its target. -/
def annotationText : Option String → String
  | some annotation => " [label=" ++ quoteText annotation ++ "];"
  | none => ";"

theorem Edge.toList_dot (e : Edge) : e.dot.toList = (quoteText e.source).toList ++ (" -> ".toList ++
    ((quoteText e.target).toList ++ (annotationText e.annotation).toList)) := by
  have hdot :
    e.dot = quoteText e.source ++ " -> " ++ quoteText e.target ++ annotationText e.annotation := rfl
  simp only [hdot, String.toList_append, List.append_assoc]

theorem settles_annotationText (a b : Option String) :
    Settles (annotationText a).toList (annotationText b).toList (a = b) := by
  have hsome (a : String) :
      (annotationText (some a)).toList =
        " [label=".toList ++ ((quoteText a).toList ++ "];".toList) := by
    simp only [annotationText, String.toList_append, List.append_assoc]
  match a, b with
  | none, none => exact (Settles.refl _).imp fun _ => rfl
  | none, some b =>
    rw [hsome]
    exact .of_ne (by decide) _ _ _
  | some a, none =>
    rw [hsome]
    exact .of_ne (by decide) _ _ _
  | some a, some b =>
    rw [hsome, hsome]
    exact (((settles_quoteText a b).append_right "];".toList).append_left " [label=".toList).imp
      (congrArg some)

theorem Edge.settles_dot (e f : Edge) : Settles e.dot.toList f.dot.toList (e = f) := by
  have htarget :=
    (settles_quoteText e.target f.target).append (settles_annotationText e.annotation f.annotation)
  have hedge := (settles_quoteText e.source f.source).append (htarget.append_left " -> ".toList)
  rw [Edge.toList_dot, Edge.toList_dot]
  refine hedge.imp ?_
  rintro ⟨hsource, htarget, hannotation⟩
  cases e
  cases f
  simp_all

theorem Edge.settles_dot_ne (e : Edge) {c : Char} (hc : '"' ≠ c) (w : List Char) :
    Settles e.dot.toList (c :: w) False := by
  rw [Edge.toList_dot]
  exact settles_quoteText_ne hc _ _ _

/-- A node is told from an edge behind the first quoted text. -/
theorem settles_node_edge (n : Node) (e : Edge) : Settles n.dot.toList e.dot.toList False := by
  rw [Node.toList_dot, Edge.toList_dot]
  refine ((settles_quoteText n.id e.source).append (q := False) ?_).imp And.right
  exact Settles.append_left [' '] (.of_ne (by decide) _ _ _)

/-! ## Drawings -/

section Blocks

variable {α β : Type} (key : α → β) {write : α → List Char} {l m : List α}

/-- The lines of a list, one for each element; an empty list has one empty line. -/
def block (write : α → List Char) : List α → List Char
  | [] => ['\n']
  | a :: l => (a :: l).flatMap fun a => write a ++ ['\n']

theorem toList_lines (f : α → String) (l : List α) :
    (lines (l.map f)).toList ++ ['\n'] = block (fun a => (f a).toList) l := by
  cases l with
  | nil => rfl
  | cons a l =>
    induction l generalizing a with
    | nil => simp [lines, block]
    | cons b l ih =>
      have hlines : lines ((a :: b :: l).map f) = f a ++ "\n" ++ lines ((b :: l).map f) :=
        String.intercalate_cons_cons
      rw [hlines, String.toList_append, List.append_assoc, ih, String.toList_append]
      rfl

/-- A block is settled by its elements, if none of them begins like an empty line or like what
stands behind the other block. -/
theorem settles_block {u u' : List Char} {p : Prop} (hempty : ∀ a, Settles (write a) ['\n'] False)
    (hwrite : ∀ a ∈ l, ∀ b ∈ m, Settles (write a) (write b) (key a = key b))
    (hl : ∀ a ∈ l, Settles (write a) u' False) (hm : ∀ b ∈ m, Settles (write b) u False)
    (hclose : Settles u u' p) :
    Settles (block write l ++ u) (block write m ++ u') (l.map key = m.map key ∧ p) := by
  cases l with
  | nil =>
    cases m with
    | nil => exact (hclose.append_left ['\n']).imp fun hp => ⟨rfl, hp⟩
    | cons b m =>
      rw [block, block, List.flatMap_cons, List.append_assoc, List.append_assoc]
      exact (hempty b).symm.append_never _ _ _
  | cons a l =>
    cases m with
    | nil =>
      rw [block, block, List.flatMap_cons, List.append_assoc, List.append_assoc]
      exact (hempty a).append_never _ _ _
    | cons b m =>
      refine Settles.flatMap key
        (fun a ha b hb => (hwrite a ha b hb).append_right ['\n']) ?_ ?_ hclose
      · intro a ha
        simpa using (hl a ha).append_never ['\n'] [] False
      · intro b hb
        simpa using (hm b hb).append_never ['\n'] [] False

end Blocks

/-- A drawing with the colors that its nodes are drawn in. -/
def filled (d : Drawing) : Drawing := { d with nodes := d.nodes.map Node.filled }

/-- There is no quote in the color of any node. -/
def Unquoted (d : Drawing) : Prop := ∀ n ∈ d.nodes, n.Unquoted

/-- What every drawing begins with. -/
def heading : String := "digraph G \x7b\n" ++ lines attributes ++ "\n\n"

theorem dot_eq (d : Drawing) : d.dot =
    heading ++ lines (d.nodes.map Node.dot) ++ "\n" ++ lines (d.edges.map Edge.dot) ++ "\n\x7d" :=
  rfl

theorem toList_dot (d : Drawing) : d.dot.toList = heading.toList ++
    (block (fun n => n.dot.toList) d.nodes ++
      (block (fun e => e.dot.toList) d.edges ++ ['\x7d'])) := by
  have hnewline : "\n".toList = ['\n'] := rfl
  have hend : "\n\x7d".toList = ['\n'] ++ ['\x7d'] := rfl
  simp only [dot_eq, ← toList_lines, String.toList_append, hnewline, hend, List.append_assoc]

theorem settles_edges (l m : List Edge) : Settles (block (fun e => e.dot.toList) l ++ ['\x7d'])
    (block (fun e => e.dot.toList) m ++ ['\x7d']) (l = m) := by
  have hlists :=
    settles_block id (l := l) (m := m) (fun e => e.settles_dot_ne (c := '\n') (by decide) [])
    (fun e _ f _ => e.settles_dot f) (fun e _ => e.settles_dot_ne (by decide) [])
    (fun e _ => e.settles_dot_ne (by decide) []) (.refl ['\x7d'])
  refine hlists.imp ?_
  rintro ⟨h, -⟩
  rwa [List.map_id, List.map_id] at h

/-- A node begins unlike what stands behind the nodes: an edge, or an empty line. -/
theorem settles_node_edges (n : Node) (l : List Edge) :
    Settles n.dot.toList (block (fun e => e.dot.toList) l ++ ['\x7d']) False := by
  cases l with
  | nil => exact n.settles_dot_ne (by decide) _
  | cons e l =>
    rw [block, List.flatMap_cons, List.append_assoc, List.append_assoc]
    simpa using (settles_node_edge n e).append_never [] _ False

theorem settles_dot {d d' : Drawing} (hd : d.Unquoted) (hd' : d'.Unquoted) :
    Settles d.dot.toList d'.dot.toList (d.filled = d'.filled) := by
  have hnodes := settles_block Node.filled (fun n => n.settles_dot_ne (c := '\n') (by decide) [])
    (fun n hn m hm => Node.settles_dot (hd n hn) (hd' m hm))
    (fun n _ => settles_node_edges n d'.edges)
    (fun n _ => settles_node_edges n d.edges) (settles_edges d.edges d'.edges)
  rw [toList_dot, toList_dot]
  refine (hnodes.append_left heading.toList).imp ?_
  rintro ⟨hnodes, hedges⟩
  rw [filled, filled, hnodes, hedges]

theorem dot_filled (d : Drawing) : d.filled.dot = d.dot := by
  rw [dot_eq, dot_eq, filled, List.map_map]
  rfl

/-- All colors that graphs are drawn in are without quotes. -/
theorem unquoted_draw (g : FlowGraph) (h : Hierarchy) (calls : CallGraph) :
    g.draw.Unquoted ∧ h.draw.Unquoted ∧ calls.draw.Unquoted := by
  refine ⟨?_, ?_, ?_⟩
  · intro n hn color hcolor
    obtain ⟨⟨index, m⟩, -, rfl⟩ := List.mem_map.mp hn
    change m.role.fillColor = some color at hcolor
    cases hrole : m.role <;> rw [hrole] at hcolor <;> cases hcolor <;> decide
  all_goals
    intro n hn color hcolor
    obtain ⟨_, -, rfl⟩ := List.mem_map.mp hn
    cases hcolor

/-- **The text of a drawing is unambiguous.** Two drawings have the same text exactly if they have
the same nodes, drawn in the same colors, and the same edges, as long as there is no quote in a
color. -/
theorem dot_eq_iff {d d' : Drawing} (hd : d.Unquoted) (hd' : d'.Unquoted) :
    d.dot = d'.dot ↔ d.filled = d'.filled := by
  constructor
  · intro h
    exact (settles_dot hd hd' [] [] (by rw [h])).1
  · intro h
    rw [← dot_filled d, h, dot_filled d']

/-- A node with an id that reads like statements, and with a label that has a line break behind a
backslash. -/
def deceptive (color : Option String) : Drawing where
  nodes := [⟨"a\"];\n\"a\" -> \"b", "\\\n", color⟩]
  edges := [⟨"a", "b", some ""⟩]

theorem dot_eq_iff_deceptive :
    (deceptive none).Unquoted ∧ (deceptive (some "white")).Unquoted ∧
      (deceptive (some "red")).Unquoted ∧
    (deceptive none).dot = (deceptive (some "white")).dot ∧
      (deceptive none).dot ≠ (deceptive (some "red")).dot := by
  have hunquoted (color : Option String)
      (h : ∀ c ∈ color, '"' ∉ c.toList) : (deceptive color).Unquoted := by
    intro n hn
    rw [List.mem_singleton.mp hn]
    exact h
  have hnone := hunquoted none (by decide)
  have hwhite := hunquoted (some "white") (by decide)
  have hred := hunquoted (some "red") (by decide)
  exact ⟨hnone, hwhite, hred, (dot_eq_iff hnone hwhite).mpr rfl,
    mt (dot_eq_iff hnone hred).mp (by decide)⟩

end Drawing

end ContractFlow
