import FlowReport.Text.Basic

/-!
# Page sources

The templates of the pages, in which `${name}` stands for a field, and the files that every report
holds beside its pages.
-/

namespace FlowReport.Source

/-- The lines as one text, each ended by a line feed. -/
def text (lines : List String) : Text := lines.flatMap fun line => line.toList ++ ['\n']

/-- The template of an overview: the pagination and the panes of a page. -/
def overview : Text := text [
  "<!DOCTYPE html>",
  "<html>",
  "<head>",
  "\t<meta charset=\"utf-8\">",
  "\t<title>$\x7bfunc_name\x7d: page $\x7bcur_page\x7d of $\x7bnpages\x7d</title>",
  "\t<link rel=\"stylesheet\" href=\"inc/css/explore.css\">",
  "\t<script src=\"inc/js/style.js\"></script>",
  "</head>",
  "<body class=\"overview\" onload=\"update_style_selection()\">",
  "\t<header>",
  "\t\t<a href=\"index.html\">$\x7bll_name\x7d</a> / <strong>$\x7bfunc_name\x7d</strong>",
  "\t\t<span class=\"desc\">Step $\x7bstep\x7d$\x7bsub_step\x7d: $\x7bdesc\x7d</span>",
  "\t\t<label>Style",
  "\t\t\t<select id=\"style_selection\" onchange=\"select_style()\">",
  "$\x7bstyles_html\x7d",
  "\t\t\t</select>",
  "\t\t</label>",
  "\t</header>",
  "\t<nav class=\"pagination\">",
  "$\x7bpages_html\x7d",
  "\t</nav>",
  "\t<main class=\"panes\">",
  "$\x7bframes_html\x7d",
  "\t</main>",
  "</body>",
  "</html>"]

/-- The template of the pane with the source code. -/
def code : Text := text [
  "<!DOCTYPE html>",
  "<html>",
  "<head>",
  "\t<meta charset=\"utf-8\">",
  "\t<title>$\x7bfunc_name\x7d: Original C source code</title>",
  "\t<link rel=\"stylesheet\" href=\"inc/css/explore.css\">",
  "\t<link id=\"chroma_style\" rel=\"stylesheet\" href=\"inc/css/chroma_$\x7bstyle\x7d.css\">",
  "\t<script src=\"inc/js/style.js\"></script>",
  "</head>",
  "<body class=\"pane\" onload=\"add_update_style_event_listener(); update_style();\">",
  "\t<h1>Original C source code</h1>",
  "\t<p class=\"desc\">$\x7bdesc\x7d</p>",
  "\t<div class=\"code\">",
  "$\x7bcode_html\x7d",
  "\t</div>",
  "</body>",
  "</html>"]

/-- The template of the pane with the assembly. -/
def assembly : Text := text [
  "<!DOCTYPE html>",
  "<html>",
  "<head>",
  "\t<meta charset=\"utf-8\">",
  "\t<title>$\x7bfunc_name\x7d: LLVM IR assembly</title>",
  "\t<link rel=\"stylesheet\" href=\"inc/css/explore.css\">",
  "\t<link id=\"chroma_style\" rel=\"stylesheet\" href=\"inc/css/chroma_$\x7bstyle\x7d.css\">",
  "\t<script src=\"inc/js/style.js\"></script>",
  "</head>",
  "<body class=\"pane\" onload=\"add_update_style_event_listener(); update_style();\">",
  "\t<h1>LLVM IR assembly</h1>",
  "\t<p class=\"desc\">$\x7bdesc\x7d</p>",
  "\t<div class=\"code\">",
  "$\x7bcode_html\x7d",
  "\t</div>",
  "</body>",
  "</html>"]

/-- The template of the pane with the control flow graph. -/
def graph : Text := text [
  "<!DOCTYPE html>",
  "<html>",
  "<head>",
  "\t<meta charset=\"utf-8\">",
  "\t<title>$\x7bfunc_name\x7d: control flow analysis</title>",
  "\t<link rel=\"stylesheet\" href=\"inc/css/explore.css\">",
  "</head>",
  "<body class=\"pane\">",
  "\t<h1>Control flow analysis</h1>",
  "\t<p class=\"desc\">$\x7bdesc\x7d</p>",
  "\t<div class=\"graph\">",
  "$\x7bgraph_html\x7d",
  "\t</div>",
  "</body>",
  "</html>"]

/-- The template of the pane with the decompiled code. -/
def decompiled : Text := text [
  "<!DOCTYPE html>",
  "<html>",
  "<head>",
  "\t<meta charset=\"utf-8\">",
  "\t<title>$\x7bfunc_name\x7d: Reconstructed Go source code</title>",
  "\t<link rel=\"stylesheet\" href=\"inc/css/explore.css\">",
  "\t<link id=\"chroma_style\" rel=\"stylesheet\" href=\"inc/css/chroma_$\x7bstyle\x7d.css\">",
  "\t<script src=\"inc/js/style.js\"></script>",
  "</head>",
  "<body class=\"pane\" onload=\"add_update_style_event_listener(); update_style();\">",
  "\t<h1>Reconstructed Go source code</h1>",
  "\t<p class=\"desc\">$\x7bdesc\x7d</p>",
  "\t<div class=\"code\">",
  "$\x7bcode_html\x7d",
  "\t</div>",
  "</body>",
  "</html>"]

/-- The template of the list of functions. -/
def index : Text := text [
  "<!DOCTYPE html>",
  "<html>",
  "<head>",
  "\t<meta charset=\"utf-8\">",
  "\t<title>$\x7bll_name\x7d</title>",
  "\t<link rel=\"stylesheet\" href=\"inc/css/explore.css\">",
  "</head>",
  "<body class=\"index\">",
  "\t<h1>Control flow analysis of $\x7bll_name\x7d</h1>",
  "\t<ul class=\"funcs\">",
  "$\x7bfuncs_html\x7d",
  "\t</ul>",
  "</body>",
  "</html>"]

/-- The style sheet of the pages. -/
def styleSheet : Text := text [
  "body \x7b",
  "\tmargin: 0;",
  "\tfont-family: sans-serif;",
  "\tfont-size: 14px;",
  "\x7d",
  "",
  "body.overview \x7b",
  "\tdisplay: flex;",
  "\tflex-direction: column;",
  "\theight: 100vh;",
  "\x7d",
  "",
  "header, nav.pagination \x7b",
  "\tpadding: 4px 8px;",
  "\tbackground: #272822;",
  "\tcolor: #f8f8f2;",
  "\x7d",
  "",
  "header a, nav.pagination a \x7b",
  "\tcolor: #a6e22e;",
  "\ttext-decoration: none;",
  "\x7d",
  "",
  "header .desc \x7b",
  "\tmargin: 0 16px;",
  "\tcolor: #e6db74;",
  "\x7d",
  "",
  "nav.pagination a, nav.pagination span \x7b",
  "\tdisplay: inline-block;",
  "\tmin-width: 2.5em;",
  "\ttext-align: center;",
  "\x7d",
  "",
  "nav.pagination .current \x7b",
  "\tfont-weight: bold;",
  "\tcolor: #f92672;",
  "\x7d",
  "",
  "nav.pagination .disabled \x7b",
  "\tcolor: #75715e;",
  "\x7d",
  "",
  "main.panes \x7b",
  "\tflex: 1;",
  "\tdisplay: grid;",
  "\tgrid-template-columns: repeat(2, 1fr);",
  "\tgrid-auto-rows: 1fr;",
  "\tmin-height: 0;",
  "\x7d",
  "",
  "main.panes iframe \x7b",
  "\twidth: 100%;",
  "\theight: 100%;",
  "\tborder: 1px solid #75715e;",
  "\tbox-sizing: border-box;",
  "\x7d",
  "",
  "body.pane \x7b",
  "\tpadding: 0 8px;",
  "\x7d",
  "",
  "body.pane h1 \x7b",
  "\tfont-size: 16px;",
  "\tmargin: 8px 0 4px;",
  "\x7d",
  "",
  "body.pane .desc \x7b",
  "\tmargin: 0 0 8px;",
  "\tcolor: #75715e;",
  "\x7d",
  "",
  ".chroma pre \x7b",
  "\tmargin: 0;",
  "\tfont-family: monospace;",
  "\x7d",
  "",
  ".chroma .linenos \x7b",
  "\tpadding-right: 8px;",
  "\ttext-align: right;",
  "\tuser-select: none;",
  "\x7d",
  "",
  ".graph img \x7b",
  "\tmax-width: 100%;",
  "\x7d",
  "",
  ".graph .missing \x7b",
  "\tfont-style: italic;",
  "\tcolor: #75715e;",
  "\x7d"]

/-- The script by which a reader chooses the style of the panes. -/
def styleScript : Text := text [
  "// Style selection of the syntax highlighted panes.",
  "//",
  "// The overview page stores the selected style in local storage and notifies",
  "// each embedded frame, which swaps its style sheet. Messages are used since",
  "// frames loaded from file:// URLs may not access the DOM of their parent.",
  "",
  "// --- [ overview ] ------------------------------------------------------------",
  "",
  "function notify_frames() \x7b",
  "\tfor (var i = 0; i < frames.length; i++) \x7b",
  "\t\tframes[i].window.postMessage(\"update_style\", \"*\");",
  "\t\x7d",
  "\x7d",
  "",
  "function set_style(style) \x7b",
  "\tlocalStorage.setItem(\"style\", style);",
  "\tnotify_frames();",
  "\x7d",
  "",
  "function select_style() \x7b",
  "\tvar elem = document.getElementById(\"style_selection\");",
  "\tset_style(elem.value);",
  "\x7d",
  "",
  "function update_style_selection() \x7b",
  "\tvar style = get_style();",
  "\tif (style === null) \x7b",
  "\t\treturn;",
  "\t\x7d",
  "\tvar elem = document.getElementById(\"style_selection\");",
  "\tfor (var i = 0; i < elem.options.length; i++) \x7b",
  "\t\tvar option = elem.options[i];",
  "\t\toption.selected = (option.value == style);",
  "\t\x7d",
  "\x7d",
  "",
  "// --- [ panes ] ---------------------------------------------------------------",
  "",
  "function add_update_style_event_listener() \x7b",
  "\twindow.addEventListener(\"message\", function(event) \x7b",
  "\t\tif (event.data == \"update_style\") \x7b",
  "\t\t\tupdate_style();",
  "\t\t\x7d",
  "\t\x7d);",
  "\x7d",
  "",
  "function update_style() \x7b",
  "\tvar style = get_style();",
  "\tif (style === null) \x7b",
  "\t\treturn;",
  "\t\x7d",
  "\tvar elem = document.getElementById(\"chroma_style\");",
  "\telem.href = \"inc/css/chroma_\" + style + \".css\";",
  "\x7d",
  "",
  "// --- [ common ] --------------------------------------------------------------",
  "",
  "function get_style() \x7b",
  "\treturn localStorage.getItem(\"style\");",
  "\x7d"]

end FlowReport.Source
