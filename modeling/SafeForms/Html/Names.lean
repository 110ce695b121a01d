import SafeForms.Node

/-!
Classes of element names in the rules of markup, and where the search for an open element stops.
-/

namespace SafeForms.Html

def isOneOf (names : List String) (e : Element) : Bool := e.ns = .html && e.name ∈ names

/-- Elements that an end tag of no special meaning does not reach across. -/
def specialNames : List String :=
  ["address", "applet", "area", "article", "aside", "base", "basefont", "bgsound", "blockquote",
    "body", "br", "button", "caption", "center", "col", "colgroup", "dd", "details", "dir", "div",
    "dl", "dt", "embed", "fieldset", "figcaption", "figure", "footer", "form", "frame", "frameset",
    "h1", "h2", "h3", "h4", "h5", "h6", "head", "header", "hgroup", "hr", "html", "iframe", "img",
    "input", "isindex", "li", "link", "listing", "main", "marquee", "menu", "meta", "nav",
    "noembed", "noframes", "noscript", "object", "ol", "p", "param", "plaintext", "pre", "script",
    "section", "select", "source", "style", "summary", "table", "tbody", "td", "template",
    "textarea", "tfoot", "th", "thead", "title", "tr", "track", "ul", "wbr", "xmp"]

/-- Blocks: their start tags end a paragraph, and their end tags end what is open in them. -/
def blockNames : List String :=
  ["address", "article", "aside", "blockquote", "center", "details", "dialog", "dir", "div", "dl",
    "fieldset", "figcaption", "figure", "footer", "header", "hgroup", "main", "menu", "nav", "ol",
    "search", "section", "summary", "ul"]

def headingNames : List String := ["h1", "h2", "h3", "h4", "h5", "h6"]

/-- Elements with a scope of their own that are neither blocks nor inline. -/
def objectNames : List String := ["applet", "marquee", "object"]

def inlineVoidNames : List String := ["area", "br", "embed", "img", "input", "keygen", "wbr"]

def partVoidNames : List String := ["param", "source", "track"]

def headVoidNames : List String := ["base", "basefont", "bgsound", "link", "meta"]

/-- Elements that go into the head wherever they stand. -/
def headNames : List String :=
  headVoidNames ++ ["noframes", "script", "style", "template", "title"]

def rowGroupNames : List String := ["tbody", "tfoot", "thead"]

def cellNames : List String := ["td", "th"]

def tablePartNames : List String :=
  ["caption", "col", "colgroup", "tbody", "td", "tfoot", "th", "thead", "tr"]

/-- Elements whose end tags may be left out. -/
def impliedEndNames : List String :=
  ["dd", "dt", "li", "option", "optgroup", "p", "rb", "rp", "rt", "rtc"]

def templateEndNames : List String :=
  impliedEndNames ++ ["caption", "colgroup", "tbody", "td", "tfoot", "th", "thead", "tr"]

def isMathText (e : Element) : Bool :=
  e.ns = .mathml && e.name ∈ ["mi", "mo", "mn", "ms", "mtext"]

def isDrawingText (e : Element) : Bool :=
  e.ns = .svg && e.name ∈ ["foreignObject", "desc", "title"]

/-- Where the search for an open element stops. -/
def isBoundary (e : Element) : Bool :=
  isOneOf ["applet", "caption", "html", "table", "td", "th", "marquee", "object", "template"] e
    || isMathText e || isDrawingText e

def isListBoundary (e : Element) : Bool := isBoundary e || isOneOf ["ol", "ul"] e

def isButtonBoundary (e : Element) : Bool := isBoundary e || isOneOf ["button"] e

def isTableBoundary (e : Element) : Bool := isOneOf ["html", "table", "template"] e

def isSelectBoundary (e : Element) : Bool := !isOneOf ["optgroup", "option"] e

/-- Whether an open element that satisfies the test is found before the search stops; the innermost
element comes first. -/
def inScope (boundary test : Element → Bool) : List Element → Bool
  | [] => false
  | e :: es => test e || (!boundary e && inScope boundary test es)

end SafeForms.Html
