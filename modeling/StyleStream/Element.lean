/-
  Elements as a document presents them when they start, and the conditions that
  hold for them.
-/
import StyleStream.Condition
import StyleStream.Label
import StyleStream.Text

namespace StyleStream

/-- The declared type of an attribute. -/
inductive AttributeKind where
  /-- Character data, the type of an attribute that has no declaration. -/
  | cdata
  | id
  | other
deriving DecidableEq

structure Attribute where
  /-- The namespace, or `none` for no namespace. -/
  ns : Option String := none
  localName : String
  value : String
  kind : AttributeKind := .cdata
deriving DecidableEq

/-- The namespace of the attributes that any document may use: language and identifier. -/
def xmlNamespace : String := "http://www.w3.org/XML/1998/namespace"

namespace Attribute

/-- Whether the attribute has a qualified name. -/
def isNamed (a : Attribute) (ns : Option String) (localName : String) : Bool :=
  a.ns = ns ∧ a.localName = localName

/-- Whether the attribute identifies its element. Besides declared identifiers
these are the attributes that are called `id`, in no namespace or in that of XML. -/
def isId (a : Attribute) : Bool :=
  a.kind = .id || a.isNamed none "id" || a.isNamed (some xmlNamespace) "id"

end Attribute

/-- An element as it starts. -/
structure Element where
  /-- The namespace, or `none` for no namespace. -/
  ns : Option String := none
  localName : String
  attributes : List Attribute := []
  pseudoClasses : List String := []
deriving DecidableEq

namespace Element

/-- The first attribute with a qualified name. -/
def attribute? (e : Element) (ns : Option String) (localName : String) : Option Attribute :=
  e.attributes.find? (·.isNamed ns localName)

/-- The value of the first attribute with a qualified name. -/
def value? (e : Element) (ns : Option String) (localName : String) : Option String :=
  (e.attribute? ns localName).map (·.value)

/-- The language that the element declares. An empty declaration counts. -/
def declaredLanguage? (e : Element) : Option String :=
  (e.value? (some xmlNamespace) "lang").or (e.value? none "lang")

/-- Whether a pseudo-class applies, in any ASCII case. -/
def hasPseudoClass (e : Element) (name : String) : Bool :=
  e.pseudoClasses.any (Text.sameFolded · name)

/-- The name labels of the element. -/
def labels (e : Element) : List String :=
  elementLabels e.ns e.localName

end Element

/-! ### Conditions on an element -/

/-- What a condition can see: an element, its place among its siblings and its language. -/
structure Context where
  element : Element
  /-- How many siblings started before it. -/
  position : Nat
  /-- The language declared by it or by the nearest ancestor that declares one. -/
  language : String
deriving DecidableEq

/-- The value of the attribute that a condition names. -/
def Context.value? (c : Context) (name : AttributeName) : Option String :=
  c.element.value? name.ns name.localName

/-- Whether a condition holds. -/
def Context.holds (c : Context) : Condition → Bool
  | .id value => c.element.attributes.any fun a => a.isId && a.value == value
  | .className word => (c.element.value? none "class").any (Text.hasWord · word)
  | .hasAttribute name none => (c.value? name).isSome
  | .hasAttribute name (some value) => c.value? name == some value
  | .oneOf name word => (c.value? name).any (Text.hasWord · word)
  | .beginsHyphen name head => (c.value? name).any (Text.continues · head)
  | .lang tag => Text.continuesFolded c.language tag
  | .negation inner => !c.holds inner
  | .both left right => c.holds left && c.holds right
  | .either left right => c.holds left || c.holds right
  | .positional index => c.position == index
  | .pseudoClass name => c.element.hasPseudoClass name
  | .unsupported _ => false

end StyleStream
