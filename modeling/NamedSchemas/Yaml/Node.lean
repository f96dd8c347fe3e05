import NamedSchemas.Yaml.Token
/-!
# Nodes of YAML text

The tree that a list of tokens describes. A node that is left out where one is expected is an empty
plain scalar. Tokens are read in order, so where the text itself could not be read to its end, that
counts only if the tokens in front of the failure are those of a document.
-/

namespace NamedSchemas.Yaml

inductive Node where
  | scalar (tag : Tag) (text : Text)
  | list (tag : Tag) (items : List Node)
  | map (tag : Tag) (entries : List (Node × Node))
  /-- A node that aliases can refer to. -/
  | anchored (name : List Char) (node : Node)
  | alias (name : List Char)
  /-- The node with this index among those that stand in several places. -/
  | shared (index : Nat)

namespace Node

def empty : Node := .scalar (resolve []) []

structure Mark where
  tag : Option TagMark
  anchor : Option (List Char)

namespace Mark

def isBare (mark : Mark) : Bool := mark.tag.isNone && mark.anchor.isNone

/-- The tag of a scalar: the one that was given, or the one that its text shows when it is plain. -/
def scalarTag (mark : Mark) (plain : Bool) (t : Text) : Tag :=
  match mark.tag with
  | some (.named tag) => tag
  | some _ => resolve t
  | none => if plain then resolve t else .text

/-- The tag of a collection: the one that was given, or the usual one. -/
def collectionTag (mark : Mark) (usual : Tag) : Tag :=
  match mark.tag with
  | some (.named tag) => tag
  | _ => usual

def anchored (mark : Mark) (node : Node) : Node :=
  match mark.anchor with
  | some name => .anchored name node
  | none => node

def scalar (mark : Mark) (plain : Bool) (t : Text) : Node :=
  mark.anchored (.scalar (mark.scalarTag plain t) t)

def list (mark : Mark) (items : List Node) : Node :=
  mark.anchored (.list (mark.collectionTag .list) items)

def map (mark : Mark) (entries : List (Node × Node)) : Node :=
  mark.anchored (.map (mark.collectionTag .map) entries)

end Mark

/-- The fault where other tokens were expected: the one that ended the reading of tokens, if it did
so here. -/
def faultAt : List Token → Fault
  | .failure fault :: _ => fault
  | _ => .malformed

def readTag : List Token → Except Fault (Option TagMark × List Token)
  | .tag .undefined :: rest => .error (faultAt rest)
  | .tag mark :: rest => .ok (some mark, rest)
  | ts => .ok (none, ts)

def readAnchor : List Token → Option (List Char) × List Token
  | .anchor name :: rest => (some name, rest)
  | ts => (none, ts)

/-- The tag and the anchor in front of a node, in either order, and the tokens after them. -/
def readMark (ts : List Token) : Except Fault (Mark × List Token) := do
  let (first, ts) := readAnchor ts
  let (tag, ts) ← readTag ts
  if first.isNone && tag.isSome then
    let (second, ts) := readAnchor ts
    pure (⟨tag, second⟩, ts)
  else pure (⟨tag, first⟩, ts)

/-- Does an item of a block end without a node here? -/
def endsItem : List Token → Bool
  | .blockItem :: _ => true
  | .blockEnd :: _ => true
  | _ => false

/-- Does a list inside a map at the map's own indentation go on without a node here? -/
def endsInnerItem : List Token → Bool
  | .blockItem :: _ => true
  | .key :: _ => true
  | .value :: _ => true
  | .blockEnd :: _ => true
  | _ => false

/-- Does a key or a value of a block end without a node here? -/
def endsBlockPart : List Token → Bool
  | .key :: _ => true
  | .value :: _ => true
  | .blockEnd :: _ => true
  | _ => false

/-- Does a key or a value between brackets end without a node here? -/
def endsFlowPart : List Token → Bool
  | .value :: _ => true
  | .flowSeparator :: _ => true
  | .flowListEnd :: _ => true
  | .flowMapEnd :: _ => true
  | _ => false

/-- Passes over the comma between items; the first item has none in front, and the closing bracket
needs none. -/
def afterSeparator (first : Bool) (closing : List Token → Bool) (ts : List Token) :
    Except Fault (List Token) :=
  if first || closing ts then .ok ts
  else match ts with
    | .flowSeparator :: rest => .ok rest
    | ts => .error (faultAt ts)

def closesList : List Token → Bool
  | .flowListEnd :: _ => true
  | _ => false

def closesMap : List Token → Bool
  | .flowMapEnd :: _ => true
  | _ => false

mutual

/-- Reads a node. Outside brackets it may be a block; `inner` allows a list whose items stand at the
indentation of the map around it. -/
def read (block inner : Bool) : Nat → List Token → Except Fault (Node × List Token)
  | 0, _ => .error .malformed
  | fuel + 1, ts => do
    let (mark, ts) ← readMark ts
    match ts with
    | .alias name :: rest => if mark.isBare then .ok (.alias name, rest) else emptyOr mark ts
    | .scalar t plain :: rest => .ok (mark.scalar plain t, rest)
    | .flowListStart :: rest =>
      (readFlowItems true fuel rest).map fun r => (mark.list r.1, r.2)
    | .flowMapStart :: rest =>
      (readFlowEntries true fuel rest).map fun r => (mark.map r.1, r.2)
    | .blockItem :: _ =>
      if inner then (readInnerItems fuel ts).map fun r => (mark.list r.1, r.2)
      else emptyOr mark ts
    | .blockListStart :: rest =>
      if block then (readBlockItems fuel rest).map fun r => (mark.list r.1, r.2)
      else emptyOr mark ts
    | .blockMapStart :: rest =>
      if block then (readBlockEntries fuel rest).map fun r => (mark.map r.1, r.2)
      else emptyOr mark ts
    | _ => emptyOr mark ts

/-- After a tag or an anchor a node may be left out; otherwise one is expected. -/
def emptyOr (mark : Mark) (ts : List Token) : Except Fault (Node × List Token) :=
  if mark.isBare then .error (faultAt ts) else .ok (mark.scalar true [], ts)

def readBlockItems : Nat → List Token → Except Fault (List Node × List Token)
  | 0, _ => .error .malformed
  | fuel + 1, ts =>
    match ts with
    | .blockItem :: rest => do
      let (item, rest) ← if endsItem rest then pure (empty, rest) else read true false fuel rest
      let (items, rest) ← readBlockItems fuel rest
      pure (item :: items, rest)
    | .blockEnd :: rest => .ok ([], rest)
    | ts => .error (faultAt ts)

/-- Reads the items of a list at the indentation of the map around it. -/
def readInnerItems : Nat → List Token → Except Fault (List Node × List Token)
  | 0, _ => .error .malformed
  | fuel + 1, ts =>
    match ts with
    | .blockItem :: rest => do
      let (item, rest) ←
        if endsInnerItem rest then pure (empty, rest) else read true false fuel rest
      let (items, rest) ← readInnerItems fuel rest
      pure (item :: items, rest)
    | _ => .ok ([], ts)

def readBlockEntries : Nat → List Token → Except Fault (List (Node × Node) × List Token)
  | 0, _ => .error .malformed
  | fuel + 1, ts =>
    match ts with
    | .key :: rest => do
      let (key, rest) ← readBlockPart fuel rest
      let (value, rest) ← match rest with
        | .value :: rest => readBlockPart fuel rest
        | rest => pure (empty, rest)
      let (entries, rest) ← readBlockEntries fuel rest
      pure ((key, value) :: entries, rest)
    | .blockEnd :: rest => .ok ([], rest)
    | ts => .error (faultAt ts)

def readBlockPart : Nat → List Token → Except Fault (Node × List Token)
  | 0, _ => .error .malformed
  | fuel + 1, ts => if endsBlockPart ts then .ok (empty, ts) else read true true fuel ts

def readFlowItems (first : Bool) : Nat → List Token → Except Fault (List Node × List Token)
  | 0, _ => .error .malformed
  | fuel + 1, ts => do
    match ← afterSeparator first closesList ts with
    | .flowListEnd :: rest => pure ([], rest)
    | .key :: rest =>
      let (key, rest) ← readFlowPart fuel rest
      let (value, rest) ← match rest with
        | .value :: rest => readFlowValue fuel rest
        | rest => pure (empty, rest)
      let (items, rest) ← readFlowItems false fuel rest
      pure (.map .map [(key, value)] :: items, rest)
    | ts =>
      let (item, rest) ← read false false fuel ts
      let (items, rest) ← readFlowItems false fuel rest
      pure (item :: items, rest)

def readFlowEntries (first : Bool) :
    Nat → List Token → Except Fault (List (Node × Node) × List Token)
  | 0, _ => .error .malformed
  | fuel + 1, ts => do
    match ← afterSeparator first closesMap ts with
    | .flowMapEnd :: rest => pure ([], rest)
    | .key :: rest =>
      let (key, rest) ← readFlowPart fuel rest
      let (value, rest) ← match rest with
        | .value :: rest => readFlowValue fuel rest
        | rest => pure (empty, rest)
      let (entries, rest) ← readFlowEntries false fuel rest
      pure ((key, value) :: entries, rest)
    | ts =>
      let (key, rest) ← read false false fuel ts
      let (entries, rest) ← readFlowEntries false fuel rest
      pure ((key, empty) :: entries, rest)

def readFlowPart : Nat → List Token → Except Fault (Node × List Token)
  | 0, _ => .error .malformed
  | fuel + 1, ts => if endsFlowPart ts then .ok (empty, ts) else read false false fuel ts

def readFlowValue : Nat → List Token → Except Fault (Node × List Token)
  | 0, _ => .error .malformed
  | fuel + 1, ts =>
    match ts with
    | .value :: _ => .error .malformed
    | ts => if endsFlowPart ts then .ok (empty, ts) else read false false fuel ts

end

def isDocumentEnd : Token → Bool
  | .documentEnd => true
  | _ => false

/-- The directives in front of a document, and the tokens after them. -/
def splitDirectives : List Token → List Directive × List Token
  | .directive d :: rest =>
    let (directives, rest) := splitDirectives rest
    (d :: directives, rest)
  | ts => ([], ts)

/-- Passes over the directives in front of a document. After them its start must be marked. -/
def afterDirectives (ts : List Token) : Except Fault (List Token) :=
  match splitDirectives ts with
  | ([], ts) => .ok ts
  | (directives, ts) =>
    if Directive.areConsistent directives then
      match ts with
      | .documentStart :: _ => .ok ts
      | ts => .error (faultAt ts)
    else .error .malformed

def isBare : List Token → Bool
  | [] => true
  | .directive _ :: _ => true
  | .documentStart :: _ => true
  | .documentEnd :: _ => true
  | _ => false

/-- Checks that the text ends after its document. Another document is not allowed, but what is wrong
up to its start counts first. -/
def checkEnd (ts : List Token) : Except Fault Unit :=
  match ts.dropWhile isDocumentEnd with
  | [] => .ok ()
  | ts => do
    let ts ← afterDirectives ts
    .error (faultAt ts)

/-- The node of the one document that the tokens describe. A text without tokens, or with a start
and nothing else, is an empty document. -/
def ofTokens (ts : List Token) : Except Fault Node := do
  let ts ← afterDirectives ts
  -- up to three functions are called in a row before a token is passed over
  let fuel := 3 * ts.length + 3
  let (node, rest) ← match ts with
    | [] => pure (empty, [])
    | .documentStart :: rest =>
      if isBare rest then pure (empty, rest) else read true false fuel rest
    | ts => read true false fuel ts
  checkEnd rest
  pure node

end Node

end NamedSchemas.Yaml
