import ModuleGraph.Drawing.Dot
import ModuleGraph.Proofs.Drawing.Selection
import ModuleGraph.Proofs.Text
import ModuleGraph.Proofs.Text.Lines

/-!
Drawings read back from their DOT texts.

* `readName_quoted`: a quoted name ends at its closing quote and stands for itself, whatever
  characters it has and whatever follows it;
* `readStatement_nodeLine`, `readStatement_edgeLine`: the line of a node and that of an edge;
* `read_text`: the text of an analysis stands for the drawing of what is selected;
* `drawing_recovered`: from its text a drawing is read as it was made, and what is drawn around
  some nodes are these, their neighbours and the edges that touch them.
-/

namespace ModuleGraph
namespace Dot

open Text

variable {rest t : Text} {n : Text} {e : Text × Text}

/-- What a drawing shows: its nodes with their labels, and its edges, marked if they are red. -/
structure Drawing where
  nodes : List (Text × Text)
  edges : List ((Text × Text) × Bool)
  deriving Repr, DecidableEq

/-- The name up to its closing quote, and what follows it. -/
def readName : Text → Option (Text × Text)
  | [] => none
  | '"' :: rest => some ([], rest)
  | '\\' :: c :: rest => (readName rest).map fun (name, rest) => (c :: name, rest)
  | c :: rest => (readName rest).map fun (name, rest) => (c :: name, rest)

/-- One statement of a drawing. -/
inductive Statement
  | node (name label : Text)
  | edge (source target : Text) (red : Bool)
  deriving Repr, DecidableEq

/-- The rest of the statement of a node, after its name. -/
def readNode (name : Text) (t : Text) : Option (Statement × Text) := do
  let t ← after? " [label=\"" t
  let (label, t) ← readName t
  let t ← after? "];\n" t
  some (.node name label, t)

/-- The rest of the statement of an edge, after its source. -/
def readEdge (source : Text) (t : Text) : Option (Statement × Text) := do
  let t ← after? " -> \"" t
  let (target, t) ← readName t
  match after? " [color=\"red\", penwidth=2];\n" t with
  | some t => some (.edge source target true, t)
  | none => (after? ";\n" t).map (.edge source target false, ·)

/-- A statement with its line end, and what follows it. -/
def readStatement (t : Text) : Option (Statement × Text) := do
  let t ← after? "  \"" t
  let (name, t) ← readName t
  (readNode name t).orElse fun _ => readEdge name t

/-- The statements up to the end of the drawing. Each takes a character at least, so the length of
the text is `fuel` enough. -/
def readStatements : (fuel : Nat) → Text → Option (List Statement)
  | 0, _ => none
  | fuel + 1, t =>
    if t = "\x7d\n" then some []
    else match readStatement t with
      | none => none
      | some (s, rest) => (readStatements fuel rest).map (s :: ·)

/-- The statements of the nodes and of the edges. -/
def Drawing.ofStatements (ss : List Statement) : Drawing where
  nodes := ss.filterMap fun
    | .node name label => some (name, label)
    | .edge .. => none
  edges := ss.filterMap fun
    | .node .. => none
    | .edge source target red => some ((source, target), red)

/-- The drawing that a text stands for. -/
def read (t : Text) : Option Drawing := do
  let t ← after? (unlines opening ++ ['\n']) t
  (readStatements t.length t).map Drawing.ofStatements

theorem after?_append (w t : Text) : after? w (w ++ t) = some t := after?_eq_some.mpr rfl

theorem readName_quoteChar (c : Char) (t : Text) :
    readName (quoteChar c ++ t) = (readName t).map fun (name, rest) => (c :: name, rest) := by
  by_cases hquote : c = '"'
  · subst hquote
    rfl
  · by_cases hback : c = '\\'
    · subst hback
      rfl
    · simp [quoteChar, readName, hquote, hback]

/-- A quoted name is read as it was written, whatever follows it. -/
theorem readName_quoted (n rest : Text) :
    readName (n.flatMap quoteChar ++ '"' :: rest) = some (n, rest) := by
  induction n with
  | nil => rfl
  | cons c n ih => rw [List.flatMap_cons, List.append_assoc, readName_quoteChar, ih]; rfl

/-- The line of a node is read as it was written. -/
theorem readStatement_nodeLine (root n rest : Text) :
    readStatement (nodeLine root n ++ '\n' :: rest) =
      some (.node n (Path.display n (some root)), rest) := by
  have hline : nodeLine root n ++ '\n' :: rest =
      ("  \"" : Text) ++ (n.flatMap quoteChar ++ '"' :: ((" [label=\"" : Text) ++
        ((Path.display n (some root)).flatMap quoteChar ++ '"' :: (("];\n" : Text) ++ rest)))) := by
    simp [nodeLine, quoted]
  rw [hline, readStatement]
  simp only [after?_append, readName_quoted, readNode, Option.bind_eq_bind, Option.bind_some]
  rfl

/-- What follows the source of an edge is no label. -/
theorem readNode_arrow (name t : Text) : readNode name ((" -> \"" : Text) ++ t) = none := by
  have hafter : after? " [label=\"" ((" -> \"" : Text) ++ t) = none := rfl
  rw [readNode, hafter]
  rfl

/-- The line of an edge is read as it was written. -/
theorem readStatement_edgeLine (red : List (Text × Text)) (e : Text × Text) (rest : Text) :
    readStatement (edgeLine red e ++ '\n' :: rest) =
      some (.edge e.1 e.2 (red.contains e), rest) := by
  have hline : ∀ style : Text,
      (("  " : Text) ++ quoted e.1 ++ " -> " ++ quoted e.2 ++ style ++ [';']) ++ '\n' :: rest =
      ("  \"" : Text) ++ (e.1.flatMap quoteChar ++ '"' :: ((" -> \"" : Text) ++
        (e.2.flatMap quoteChar ++ '"' :: (style ++ ((";\n" : Text) ++ rest))))) := by
    intro style
    simp [quoted]
  rw [edgeLine, hline, readStatement]
  simp only [after?_append, readName_quoted, readNode_arrow, readEdge, Option.bind_eq_bind,
    Option.bind_some]
  cases red.contains e with
  | true => rfl
  | false => rfl

/-- A line that stands for a statement, whatever follows it. -/
def Spells (line : Text) (s : Statement) : Prop :=
  ∀ rest, readStatement (line ++ '\n' :: rest) = some (s, rest)

/-- The end of a drawing. -/
def closing : List Text := [['\x7d'], []]

theorem unlines_closing (line : Text) (lines : List Text) :
    unlines (line :: lines ++ closing) = line ++ '\n' :: unlines (lines ++ closing) :=
  unlines_cons (by simp [closing])

theorem length_lt_unlines (lines : List Text) :
    lines.length < (unlines (lines ++ closing)).length := by
  induction lines with
  | nil => decide
  | cons line lines ih =>
    rw [unlines_closing]
    simp only [List.length_append, List.length_cons]
    omega

/-- Lines that stand for statements are read as these, one after the other. -/
theorem readStatements_unlines {lines : List Text} {ss : List Statement}
    (h : List.Forall₂ Spells lines ss) {fuel : Nat} (hf : lines.length < fuel) :
    readStatements fuel (unlines (lines ++ closing)) = some ss := by
  induction h generalizing fuel with
  | nil =>
    obtain ⟨fuel, rfl⟩ : ∃ f, fuel = f + 1 := ⟨fuel - 1, by simp at hf; omega⟩
    rfl
  | @cons line s lines ss hline _ ih =>
    obtain ⟨fuel, rfl⟩ : ∃ f, fuel = f + 1 := ⟨fuel - 1, by omega⟩
    have hread := hline (unlines (lines ++ closing))
    have hopen : line ++ '\n' :: unlines (lines ++ closing) ≠ "\x7d\n" := by
      intro heq
      rw [heq] at hread
      cases hread
    rw [List.length_cons] at hf
    rw [unlines_closing, readStatements, if_neg hopen, hread]
    simp only [ih (Nat.lt_of_succ_lt_succ hf), Option.map_some]

/-- A drawing whose lines stand for statements. -/
theorem read_unlines {lines : List Text} {ss : List Statement}
    (h : List.Forall₂ Spells lines ss) :
    read (unlines (opening ++ (lines ++ closing))) = some (.ofStatements ss) := by
  have hsplit : unlines (opening ++ (lines ++ closing)) =
      (unlines opening ++ ['\n']) ++ unlines (lines ++ closing) := by
    rw [unlines_append (by simp [opening]) (by simp [closing]), List.append_assoc]
    rfl
  rw [hsplit, read, after?_append]
  simp only [Option.bind_eq_bind, Option.bind_some,
    readStatements_unlines h (length_lt_unlines lines), Option.map_some]

/-- The statements of nodes and edges, as they are written. -/
theorem forall₂_spells (root : Text) (red : List (Text × Text)) (s : Selection) :
    List.Forall₂ Spells (s.nodes.map (nodeLine root) ++ s.edges.map (edgeLine red))
      (s.nodes.map (fun n => .node n (Path.display n (some root))) ++
        s.edges.map fun e => .edge e.1 e.2 (red.contains e)) := by
  refine List.rel_append ?_ ?_
  · rw [List.forall₂_map_left_iff, List.forall₂_map_right_iff, List.forall₂_same]
    exact fun n _ => readStatement_nodeLine root n
  · rw [List.forall₂_map_left_iff, List.forall₂_map_right_iff, List.forall₂_same]
    exact fun e _ => readStatement_edgeLine red e

theorem ofStatements_append (nodes : List (Text × Text)) (edges : List ((Text × Text) × Bool)) :
    Drawing.ofStatements (nodes.map (fun x => .node x.1 x.2) ++
      edges.map fun x => .edge x.1.1 x.1.2 x.2) = ⟨nodes, edges⟩ := by
  simp [Drawing.ofStatements, List.filterMap_append, List.filterMap_map]

/-- The drawing of a part of a graph: its nodes are shown without the root before them, and the
edges that lie on cycles are red. -/
def Drawing.ofSelection (a : Analysis) (s : Selection) : Drawing where
  nodes := s.nodes.map fun n => (n, Path.display n (some a.root))
  edges := s.edges.map fun e => (e, decide (Cycle.OnOne a.cycles e))

/-- The text of an analysis stands for the drawing of what is selected. -/
theorem read_text (a : Analysis) (focus : Text) :
    read (ofAnalysis a focus) =
      some (.ofSelection a (.ofGraph a.dependencies.graph focus)) := by
  have hspells := forall₂_spells a.root (Cycle.allEdges a.cycles)
    (.ofGraph a.dependencies.graph focus)
  have hstatements := ofStatements_append
    (Drawing.ofSelection a (.ofGraph a.dependencies.graph focus)).nodes
    (Drawing.ofSelection a (.ofGraph a.dependencies.graph focus)).edges
  simp only [Drawing.ofSelection, List.map_map, Function.comp_def] at hstatements
  simp only [Cycle.contains_allEdges] at hspells
  have hread := read_unlines hspells
  rw [hstatements] at hread
  simpa only [ofAnalysis, Drawing.ofSelection, closing, List.append_assoc] using hread

/-- A drawing is read back from its text. Quoted names end at their closing quotes and stand for
themselves; the nodes with their labels and the edges with their colours are those that were
drawn; the ends of edges are nodes of the drawing; a text that some names hold limits it to the
edges at these nodes, and to these nodes with their neighbours; one that no name holds does not. -/
theorem drawing_recovered {a : Analysis} (h : a.dependencies.graph.Built) (focus : Text) :
    let g := a.dependencies.graph
    let s := Selection.ofGraph g focus
    (∀ name rest, ∃ body, quoted name ++ rest = '"' :: body ∧
      readName body = some (name, rest)) ∧
    read (ofAnalysis a focus) = some {
      nodes := s.nodes.map fun n => (n, Path.display n (some a.root))
      edges := s.edges.map fun e => (e, decide (∃ c ∈ a.cycles, e ∈ c.edges)) } ∧
    (∀ e ∈ s.edges, e.1 ∈ s.nodes ∧ e.2 ∈ s.nodes) ∧
    ((∃ m, g.Matches focus m) →
      (∀ e, e ∈ s.edges ↔ e ∈ g.edges ∧ (g.Matches focus e.1 ∨ g.Matches focus e.2)) ∧
      ∀ n, n ∈ s.nodes ↔
        g.Matches focus n ∨ ∃ m, g.Matches focus m ∧ (g.Edge m n ∨ g.Edge n m)) ∧
    ((∀ m, ¬ g.Matches focus m) → s = ⟨g.nodes, g.edges⟩) := by
  intro g s
  have hg := h.wellFormed
  refine ⟨fun name rest => ?_, read_text a focus, fun e he => Selection.ends_mem_nodes hg he,
    ?_, fun hnone => Selection.ofGraph_unfocused (Or.inr hnone)⟩
  · exact ⟨name.flatMap quoteChar ++ '"' :: rest, by simp [quoted], readName_quoted name rest⟩
  · rintro ⟨m, hm⟩
    exact ⟨fun e => Selection.mem_edges_ofGraph hg hm, fun n => Selection.mem_nodes_ofGraph hg hm⟩

/-- Three modules whose names have the signs of the format in them, two of which use each other. -/
def imitating : Analysis :=
  let graph := ((Graph.empty.addEdge "/p/a\\" "/p/\" -> \"").addEdge "/p/\" -> \"" "/p/a\\").addEdge
    "/p/b\"];\n  \"" "/p/a\\"
  { root := "/p", sources := [], dependencies := { graph }, cycles := graph.cycles, skipped := [] }

theorem imitating_selection :
    Selection.ofGraph imitating.dependencies.graph "a\\" = {
      nodes := ["/p/\" -> \"", "/p/a\\", "/p/b\"];\n  \""]
      edges := [("/p/a\\", "/p/\" -> \""),
        ("/p/\" -> \"", "/p/a\\"),
        ("/p/b\"];\n  \"", "/p/a\\")] } := by
  cbv

theorem imitating_cycles :
    imitating.cycles.flatMap Cycle.edges =
      ([("/p/a\\", "/p/\" -> \""), ("/p/\" -> \"", "/p/a\\")] : List (Text × Text)) := by
  cbv

/-- Around the module that ends in a backslash all three are drawn, and are read back. -/
theorem drawing_recovered_imitating :
    imitating.dependencies.graph.Built ∧ imitating.dependencies.graph.Matches "a\\" "/p/a\\" ∧
    read (ofAnalysis imitating "a\\") = some {
      nodes := [("/p/\" -> \"", "\" -> \""), ("/p/a\\", "a\\"),
        ("/p/b\"];\n  \"", "b\"];\n  \"")]
      edges := [(("/p/a\\", "/p/\" -> \""), true),
        (("/p/\" -> \"", "/p/a\\"), true),
        (("/p/b\"];\n  \"", "/p/a\\"), false)] } ∧
    ("/p/b\"];\n  \"" : Text) ∈ (Selection.ofGraph imitating.dependencies.graph "a\\").nodes := by
  have hbuilt : imitating.dependencies.graph.Built :=
    ((Graph.Built.empty.addEdge _ _).addEdge _ _).addEdge _ _
  have hmatch : imitating.dependencies.graph.Matches "a\\" "/p/a\\" :=
    ⟨by decide, by decide⟩
  obtain ⟨-, hread, -, hfocus, -⟩ := drawing_recovered hbuilt "a\\"
  obtain ⟨-, hnodes⟩ := hfocus ⟨_, hmatch⟩
  refine ⟨hbuilt, hmatch, ?_, ?_⟩
  · rw [hread, imitating_selection]
    simp only [← List.mem_flatMap, imitating_cycles]
    decide +kernel
  · rw [hnodes]
    exact Or.inr ⟨_, hmatch, Or.inr rfl⟩

end Dot
end ModuleGraph
