import SelectorSyntax.Grammar.Attempts
import SelectorSyntax.Selector.Basic
import SelectorSyntax.Text.Identifier
import SelectorSyntax.Text.Quoted
namespace SelectorSyntax.Selector.OfNodes

open Grammar Text

/-- Why the nodes of a match make no selectors: a simple selector stands behind the pseudo-element
of its compound, a number in what is written at a place is too large, an escaped `nth` name has an
argument that such names do not take, or a node is none that a match contains. -/
inductive Defect
  | afterPseudoElement (element : String) (simple : Node)
  | outOfRange (place written : List Char)
  | notNth (failure : Failure)
  | misshapen (place : List Char)

abbrev Result (α : Type) := Except Defect α

def identifier (n : Node) : Result String :=
  match Identifier.decode n.text with
  | .ok v => .ok (String.ofList v)
  | .error _ => .error (.misshapen n.start)

def quoted (n : Node) : Result String :=
  match Quoted.decode n.text with
  | some v => .ok (String.ofList v)
  | none => .error (.misshapen n.start)

def child? (n : Node) (r : Rule) : Option Node := n.children.find? fun c => c.rule = r

def typeName (n : Node) : Result String :=
  match n.children.head? with
  | some c =>
    match c.rule with
    | .universal => .ok "*"
    | .ident => identifier c
    | _ => .error (.misshapen n.start)
  | none => .error (.misshapen n.start)

/-- The name behind `#` or `.`. -/
def markedName (n : Node) : Result String :=
  match n.children.head? with
  | some c => identifier c
  | none => .error (.misshapen n.start)

def matcher (n : Node) : Result AttributeMatcher :=
  match AttributeMatcher.ofSymbol? (String.ofList n.text) with
  | some m => .ok m
  | none => .error (.misshapen n.start)

def attributeValue (n : Node) : Result AttributeValue :=
  match n.rule with
  | .string => (quoted n).map (⟨true, ·⟩)
  | .ident => (identifier n).map (⟨false, ·⟩)
  | _ => .error (.misshapen n.start)

/-- The children of an attribute selector behind its name: a comparison or nothing, then the
closing bracket. -/
def attributeMatch (place : List Char) : List Node → Result (Option AttributeMatch)
  | [_] => .ok none
  | [m, v, _] => do
    let m ← matcher m
    let v ← attributeValue v
    pure (some ⟨m, v, none⟩)
  | [m, v, f, _] => do
    let m ← matcher m
    let v ← attributeValue v
    pure (some ⟨m, v, AttributeModifier.ofFlag? f.text⟩)
  | _ => .error (.misshapen place)

def attributeSelector (n : Node) : Result Attribute :=
  match n.children with
  | name :: rest => do
    let name ← identifier name
    let m ← attributeMatch n.start rest
    pure ⟨name, m⟩
  | [] => .error (.misshapen n.start)

mutual

def item : Node → Result Parameter
  | ⟨rule, start, stop, children⟩ =>
    let written := String.ofList (Place.between start stop)
    match rule with
    | .string | .number | .ident | .argDelim => .ok (.text written)
    | .argSpace => .ok (.text " ")
    | .argGroup => (groupItems children).map fun ps => .list (.text (String.ofList (start.take 1)) :: ps)
    | _ => .error (.misshapen start)

def items : List Node → Result (List Parameter)
  | [] => .ok []
  | n :: ns => do
    let p ← item n
    let ps ← items ns
    pure (p :: ps)

/-- What stands behind the opening bracket of a group, its closing bracket included. -/
def groupItems : List Node → Result (List Parameter)
  | [] => .ok []
  | ⟨rule, start, stop, children⟩ :: ns => do
    let ps ← match rule with
      | .argument => items children
      | .parenClose | .bracketClose => .ok [.text (String.ofList (Place.between start stop))]
      | _ => .error (.misshapen start)
    let qs ← groupItems ns
    pure (ps ++ qs)

end

/-- The items of an optional argument. -/
def argumentItems (n : Node) : Result (List Parameter) :=
  match child? n .argument with
  | some a => items a.children
  | none => .ok []

/-- The argument of an `nth` name, spelled uniformly. -/
def nthText (place written : List Char) : Result Parameter :=
  let t := AnPlusB.normalize written
  match AnPlusB.read t with
  | .ok _ => .ok (.text (String.ofList t))
  | .error .outOfRange => .error (.outOfRange place written)
  | .error .invalid => .error (.misshapen place)

def nthParameter (n : Node) : Result Parameter :=
  match child? n .nthValue with
  | some v => nthText v.start v.text
  | none => .error (.misshapen n.start)

/-- A name written with escapes is an `nth` name only once it is decoded, so its argument has been
read as any other. It has to be what these names take all the same. -/
def escapedNthParameter (n : Node) : Result Parameter :=
  match Rule.nthArguments.parse n.text with
  | .error f => .error (.notNth { f with place := f.place ++ n.stop })
  | .ok ([], [m]) =>
    match child? m .nthValue with
    | some v => nthText (v.start ++ n.stop) v.text
    | none => .error (.misshapen n.start)
  | .ok _ => .error (.misshapen n.start)

def pseudoName (n : Node) : Result String :=
  match n.rule with
  | .nthName => .ok (String.ofList n.text)
  | .ident => identifier n
  | _ => .error (.misshapen n.start)

def pseudoParameter (name : String) (n : Node) : Result Parameter :=
  match n.rule with
  | .nthArguments => nthParameter n
  | .arguments => if AnPlusB.isPseudoName name then escapedNthParameter n else (argumentItems n).map .list
  | _ => .error (.misshapen n.start)

def pseudo (n : Node) : Result Pseudo :=
  match n.children with
  | [] => .error (.misshapen n.start)
  | c :: rest => do
    let name ← pseudoName c
    match rest with
    | [] => pure ⟨name, none⟩
    | a :: _ =>
      let p ← pseudoParameter name a
      pure ⟨name, some p⟩

def addSubclass (c : CompoundSelector) (s : Subclass) : CompoundSelector := { c with subclasses := c.subclasses ++ [s] }

/-- Adds a simple selector to those before it. Nothing may follow a pseudo-element. -/
def addSimple (c : CompoundSelector) (n : Node) : Result CompoundSelector :=
  match c.pseudoElement? with
  | some e => .error (.afterPseudoElement e.name n)
  | none =>
    match n.rule with
    | .typeSelector => (typeName n).map fun t => { c with type := some t }
    | .idSelector => (markedName n).map fun v => addSubclass c (.id v)
    | .classSelector => (markedName n).map fun v => addSubclass c (.className v)
    | .attributeSelector => (attributeSelector n).map fun a => addSubclass c (.attribute a)
    | .pseudoClass => (pseudo n).map fun p => addSubclass c (.pseudoClass p)
    | .pseudoElement => (pseudo n).map fun p => { c with pseudos := c.pseudos ++ [.pseudoElement p] }
    | _ => .error (.misshapen n.start)

def compound (n : Node) : Result CompoundSelector := n.children.foldlM addSimple .empty

def combinator (n : Node) : Result Combinator :=
  match n.children.head? with
  | some c =>
    match c.rule with
    | .descendant => .ok .descendant
    | .combinatorSymbol =>
      match Combinator.ofSymbol? (String.ofList c.text) with
      | some k => .ok k
      | none => .error (.misshapen n.start)
    | _ => .error (.misshapen n.start)
  | none => .error (.misshapen n.start)

/-- Combinators and compounds in turn. -/
def chain : List Node → Result (List (Combinator × CompoundSelector))
  | [] => .ok []
  | [n] => .error (.misshapen n.start)
  | k :: c :: rest => do
    let k ← combinator k
    let c ← compound c
    let t ← chain rest
    pure ((k, c) :: t)

def complex (n : Node) : Result ComplexSelector :=
  match n.children with
  | [] => .error (.misshapen n.start)
  | h :: rest => do
    let h ← compound h
    let t ← chain rest
    pure ⟨h, t⟩

def selectorList (n : Node) : Result SelectorList :=
  (n.children.filter fun c => c.rule = .complexSelector).mapM complex

/-- The list in a match of the rule for whole texts. -/
def selectors (root : Node) : Result SelectorList :=
  match child? root .selectorList with
  | some l => selectorList l
  | none => .error (.misshapen root.start)

def text (root : Node) : Result Parameter := (argumentItems root).map .list

end SelectorSyntax.Selector.OfNodes
