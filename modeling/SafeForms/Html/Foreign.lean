import SafeForms.Html.Names
import SafeForms.Html.Token
import SafeForms.Text.Ascii

/-!
How the names of math and drawing elements and of their attributes are spelled, and which tags lead
out of such elements again.
-/

namespace SafeForms.Html.Foreign

/-- Drawing elements with capitals in their names. -/
def drawingNames : List String :=
  ["altGlyph", "altGlyphDef", "altGlyphItem", "animateColor", "animateMotion", "animateTransform",
    "clipPath", "feBlend", "feColorMatrix", "feComponentTransfer", "feComposite",
    "feConvolveMatrix", "feDiffuseLighting", "feDisplacementMap", "feDistantLight", "feDropShadow",
    "feFlood", "feFuncA", "feFuncB", "feFuncG", "feFuncR", "feGaussianBlur", "feImage", "feMerge",
    "feMergeNode", "feMorphology", "feOffset", "fePointLight", "feSpecularLighting", "feSpotLight",
    "feTile", "feTurbulence", "foreignObject", "glyphRef", "linearGradient", "radialGradient",
    "textPath"]

def drawingAttributes : List String :=
  ["attributeName", "attributeType", "baseFrequency", "baseProfile", "calcMode", "clipPathUnits",
    "diffuseConstant", "edgeMode", "filterUnits", "glyphRef", "gradientTransform",
    "gradientUnits", "kernelMatrix", "kernelUnitLength", "keyPoints", "keySplines", "keyTimes",
    "lengthAdjust", "limitingConeAngle", "markerHeight", "markerUnits", "markerWidth",
    "maskContentUnits", "maskUnits", "numOctaves", "pathLength", "patternContentUnits",
    "patternTransform", "patternUnits", "pointsAtX", "pointsAtY", "pointsAtZ", "preserveAlpha",
    "preserveAspectRatio", "primitiveUnits", "refX", "refY", "repeatCount", "repeatDur",
    "requiredExtensions", "requiredFeatures", "specularConstant", "specularExponent",
    "spreadMethod", "startOffset", "stdDeviation", "stitchTiles", "surfaceScale",
    "systemLanguage", "tableValues", "targetX", "targetY", "textLength", "viewBox", "viewTarget",
    "xChannelSelector", "yChannelSelector", "zoomAndPan"]

def mathAttributes : List String := ["definitionURL"]

/-- Attributes that belong to a namespace, with their names there. -/
def qualified : List (String × Namespace × String) :=
  [("xlink:actuate", .xlink, "actuate"), ("xlink:arcrole", .xlink, "arcrole"),
    ("xlink:href", .xlink, "href"), ("xlink:role", .xlink, "role"), ("xlink:show", .xlink, "show"),
    ("xlink:title", .xlink, "title"), ("xlink:type", .xlink, "type"), ("xml:lang", .xml, "lang"),
    ("xml:space", .xml, "space"), ("xmlns", .xmlns, "xmlns"), ("xmlns:xlink", .xmlns, "xlink")]

/-- The listed spelling of a name that was read in lower case. -/
def respell (spellings : List String) (name : String) : String :=
  (spellings.find? fun spelling => Text.lower spelling = name).getD name

def elementName (ns : Namespace) (name : String) : String :=
  if ns = .svg then respell drawingNames name else name

def attributeName (ns : Namespace) (name : String) : String :=
  if ns = .svg then respell drawingAttributes name
  else if ns = .mathml then respell mathAttributes name
  else name

def qualify (name value : String) : Attribute :=
  match qualified.lookup name with
  | some (ns, localName) => ⟨ns, localName, value⟩
  | none => ⟨.null, name, value⟩

/-- The element of a start tag in this namespace. The root of a drawing keeps its name. -/
def element (ns : Namespace) (tag : Tag) : Element where
  ns := ns
  name := elementName ns tag.name
  attrs := tag.attrs.map fun (name, value) => qualify (attributeName ns name) value

/-- Start tags that end every foreign element they stand in. -/
def breakoutNames : List String :=
  ["b", "big", "blockquote", "body", "br", "center", "code", "dd", "div", "dl", "dt", "em",
    "embed", "h1", "h2", "h3", "h4", "h5", "h6", "head", "hr", "i", "img", "li", "listing", "menu",
    "meta", "nobr", "ol", "p", "pre", "ruby", "s", "small", "span", "strong", "strike", "sub",
    "sup", "table", "tt", "u", "ul", "var"]

def breaksOut (tag : Tag) : Bool :=
  tag.name ∈ breakoutNames ||
    (tag.name = "font" && tag.attrs.any fun a => a.1 ∈ ["color", "face", "size"])

/-- A math annotation that holds HTML says so in its encoding. -/
def isMarkupAnnotation (e : Element) : Bool :=
  e.ns = .mathml && e.name = "annotation-xml" &&
    (e.attrs.get? "encoding").any fun value =>
      Text.lower value ∈ ["text/html", "application/xhtml+xml"]

/-- Elements between which and a foreign one no more foreign elements are ended. -/
def holdsHtml (e : Element) : Bool := e.ns = .html || isMathText e || isDrawingText e

def applies (e : Element) (t : Token) : Bool :=
  if e.ns = .html then false
  else
    match t with
    | .endOfInput => false
    | .character _ => !(isMathText e || isDrawingText e || isMarkupAnnotation e)
    | .startTag tag =>
      !((isMathText e && tag.name ∉ ["mglyph", "malignmark"]) || isDrawingText e ||
        (e.ns = .mathml && e.name = "annotation-xml" && tag.name = "svg") ||
        isMarkupAnnotation e)
    | _ => true

end SafeForms.Html.Foreign
