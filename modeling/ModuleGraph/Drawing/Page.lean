import ModuleGraph.Drawing.Selection
import ModuleGraph.Value.JsonWriter

/-! Graphs as web pages that need nothing else: the graph stands in a script as JSON, in which no
closing tag may stand. -/

namespace ModuleGraph
namespace Page

/-- One character of a text between tags. -/
def escapeChar (c : Char) : Text :=
  if c = '&' then "&amp;"
  else if c = '<' then "&lt;"
  else if c = '>' then "&gt;"
  else if c = '"' then "&quot;"
  else if c = '\'' then "&#x27;"
  else [c]

def escape (t : Text) : Text := t.flatMap escapeChar

/-- A text in which a backslash parts every `<` from a slash after it. -/
def partTags : Text → Text
  | '<' :: '/' :: rest => '<' :: '\\' :: '/' :: partTags rest
  | c :: rest => c :: partTags rest
  | [] => []

def nodeValue (root node : Text) : Value :=
  .table [("id", .text node), ("label", .text (Path.display node (some root)))]

def edgeValue (root : Text) (red : List (Text × Text)) (e : Text × Text) : Value := .table [
  ("src", .text (Path.display e.1 (some root))),
  ("dst", .text (Path.display e.2 (some root))),
  ("cycle", .bool (red.contains e))]

/-- What the script of the page works on. -/
def data (a : Analysis) (s : Selection) : Value :=
  let red := Cycle.allEdges a.cycles
  .table [
    ("root", .text a.root),
    ("nodes", .array (s.nodes.map (nodeValue a.root))),
    ("edges", .array (s.edges.map (edgeValue a.root red))),
    ("cycles", .array (a.cycles.map fun c => .text (c.describe (some a.root))))]

/-- The page up to the title. -/
def beforeTitle : Text :=
  "<!doctype html>
<html>
<head>
  <meta charset=\"utf-8\" />
  <title>"

def betweenTitles : Text :=
  "</title>
  <style>
    body \x7b font-family: ui-monospace, SFMono-Regular, Menlo, monospace; margin: 20px; \x7d
    #container \x7b display: grid; grid-template-columns: 1fr 1fr; gap: 18px; \x7d
    .panel \x7b border: 1px solid #ddd; border-radius: 8px; padding: 10px; \x7d
    ul \x7b list-style: none; padding: 0; margin: 0; \x7d
    li \x7b margin: 4px 0; \x7d
    .cycle \x7b color: #c62828; font-weight: bold; \x7d
  </style>
</head>
<body>
  <h1>"

def betweenTitleAndData : Text :=
  "</h1>
  <div class=\"panel\">
    <h2>Circular dependencies</h2>
    <ul id=\"cycles\"></ul>
  </div>
  <div id=\"container\">
    <div class=\"panel\">
      <h2>Modules</h2>
      <ul id=\"nodes\"></ul>
    </div>
    <div class=\"panel\">
      <h2>Dependencies</h2>
      <ul id=\"edges\"></ul>
    </div>
  </div>
  <script>
    const graph = "

def afterData : Text :=
  ";
    const add = (id, text, cls) => \x7b
      const li = document.createElement('li');
      li.textContent = text;
      if (cls) li.className = cls;
      document.getElementById(id).appendChild(li);
    \x7d;
    if (graph.cycles.length === 0) add('cycles', 'None');
    graph.cycles.forEach(c => add('cycles', c, 'cycle'));
    graph.nodes.forEach(n => add('nodes', n.label));
    graph.edges.forEach(e => add('edges', `$\x7be.src\x7d -> $\x7be.dst\x7d`, e.cycle ? 'cycle' : ''));
  </script>
</body>
</html>
"

def title (root : Text) : Text := escape ("Dependency graph: " ++ root)

/-- The page of an analysed source tree around the nodes that hold `focus`. -/
def ofAnalysis (a : Analysis) (focus : Text) : Text :=
  let s := Selection.ofGraph a.dependencies.graph focus
  beforeTitle ++ title a.root ++ betweenTitles ++ title a.root ++ betweenTitleAndData ++
    partTags (Json.line (data a s)) ++ afterData

end Page
end ModuleGraph
