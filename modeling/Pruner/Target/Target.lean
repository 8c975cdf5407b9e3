import Mathlib.Data.List.Sort
import Mathlib.Data.String.Basic

/-!
# Compilation targets and their text

A target has a kind, keys and attributes (`src/target/target.cc`).  `Target.str` prints it
as words: the kind, `-keys=…`, and one word per attribute.  `TargetRegistry.fromString`
reads such a text back, together with the two other notations that it accepts, the name
of a registered tag and a configuration in braces.

The text does not quote anything, so it cannot carry every attribute that a configuration
can set.

## Main definitions

* `TargetKind`, `Target` — kinds with the types of their attributes, and targets.
* `Target.str` — `TargetNode::str`.
* `TargetRegistry.fromConfig`, `fromRawString`, `fromString` — the constructors.
* `rereads_llvmTarget` — every word for `mcpu` is read back.
-/

namespace Pruner

open String

/-! ## Texts -/

def isSpace (c : Char) : Bool := c = ' ' || ('\t' ≤ c && c ≤ '\r')

/-- The words of a text; `word` is the current one, backwards. -/
def wordsFrom (word : List Char) : List Char → List String
  | [] => if word = [] then [] else [ofList word.reverse]
  | c :: cs =>
    if isSpace c then
      if word = [] then wordsFrom [] cs else ofList word.reverse :: wordsFrom [] cs
    else wordsFrom (c :: word) cs

/-- The strings that `operator>>` reads one after the other. -/
def words (s : String) : List String := wordsFrom [] s.toList

/-- The parts of a text between commas; `part` is the current one, backwards. -/
def commaPartsFrom (part : List Char) : List Char → List String
  | [] => if part = [] then [] else [ofList part.reverse]
  | c :: cs =>
    if c = ',' then ofList part.reverse :: commaPartsFrom [] cs
    else commaPartsFrom (c :: part) cs

/-- What `std::getline` with a comma returns until the end of the text. -/
def commaParts (s : String) : List String := commaPartsFrom [] s.toList

/-- The number that the digits at the front of a text denote, if there is a digit. -/
def digitsValue (acc : Option ℕ) : List Char → Option ℕ
  | [] => acc
  | c :: cs =>
    if c.isDigit then digitsValue (some (acc.getD 0 * 10 + (c.toNat - '0'.toNat))) cs else acc

/-- `operator>>` for `int`. -/
def textToInt (s : String) : Option ℤ :=
  let value := match s.toList.dropWhile isSpace with
    | '-' :: cs => (digitsValue none cs).map fun n => -(n : ℤ)
    | '+' :: cs => (digitsValue none cs).map fun n => (n : ℤ)
    | cs => (digitsValue none cs).map fun n => (n : ℤ)
  value.bind fun v => if -2147483648 ≤ v ∧ v ≤ 2147483647 then some v else none

/-! ## Targets -/

/-- The type of an attribute. -/
inductive AttrType where
  | integer
  | string
  | target
  | array (elem : AttrType)
  | map
  deriving DecidableEq, Repr

/-- An attribute.  Objects that have no text (targets and maps) are all `object`. -/
inductive AttrValue where
  | int (v : ℤ)
  | str (s : String)
  | array (items : List AttrValue)
  | object
  deriving Repr

/-- The attributes of a target, one entry per name. -/
abbrev Attrs := List (String × AttrValue)

structure TargetKind where
  name : String
  name_ne : name ≠ ""
  defaultKeys : List String
  key2vtype : List (String × AttrType)
  key2default : Attrs
  preprocessor : Attrs → Option Attrs

/-- `TargetNode`, with the fields that its text shows. -/
structure Target where
  kind : TargetKind
  keys : List String
  attrs : Attrs

/-! ## Printing -/

def joinString (separator : String) : List String → Option String
  | [] => none
  | s :: rest => some (rest.foldl (fun acc t => acc ++ separator ++ t) s)

def stringifyAtomicType : AttrValue → Option String
  | .int v => some (toString v)
  | .str s => some s
  | _ => none

/-- The text of an attribute.  An array with an item that has no text has none either. -/
def stringifyAttr : AttrValue → Option String
  | .array items => joinString "," ((items.mapM stringifyAtomicType).getD [])
  | v => stringifyAtomicType v

def stringifyAttrsToRaw (attrs : Attrs) : Option String :=
  joinString " " ((attrs.insertionSort fun a b => a.1 ≤ b.1).filterMap fun kv =>
    (stringifyAttr kv.2).map fun value => "-" ++ kv.1 ++ "=" ++ value)

def Target.str (t : Target) : String :=
  t.kind.name ++
    (match joinString "," t.keys with
      | some keys => " -keys=" ++ keys
      | none => "") ++
    (match stringifyAttrsToRaw t.attrs with
      | some attrs => " " ++ attrs
      | none => "")

/-- A target's text is not empty: it starts with the name of the kind. -/
theorem Target.str_ne (t : Target) : t.str ≠ "" := by
  intro h
  have hlen := congrArg length h
  have hname : t.kind.name.length ≠ 0 := mt length_eq_zero_iff.mp t.kind.name_ne
  simp only [Target.str, length_append, length_empty] at hlen
  omega

/-! ## Reading -/

/-- What `Target(…)` looks up: the registered kinds and tags, the loader of configurations
in braces, and which texts a nested target (`host`) may have. -/
structure TargetRegistry where
  kinds : String → Option TargetKind
  tags : String → Option Target
  loadConfig : String → Option Target
  isTarget : String → Bool

def removePrefixDashes (s : String) : Option String :=
  match s.toList with
  | '-' :: cs =>
    let key := cs.dropWhile (· = '-')
    if key = [] then none else some (ofList key)
  | _ => none

/-- `ParseKVPair`: key, value, and whether the next word was used. -/
def parseKVPair (s sNext : String) : Option (String × String × Bool) :=
  let key := s.toList.takeWhile (· ≠ '=')
  match s.toList.dropWhile (· ≠ '=') with
  | _ :: value =>
    if key = [] ∨ value = [] then none
    else some (ofList key, ofList value, false)
  | [] =>
    match sNext.toList with
    | c :: _ => if c ≠ '-' then some (s, sNext, true) else some (s, "1", false)
    | [] => some (s, "1", false)

namespace TargetRegistry

variable (reg : TargetRegistry)

/-- `ParseType` on a text. -/
def parseTypeText : AttrType → String → Option AttrValue
  | .integer, s => (textToInt s).map .int
  | .string, s => (words s).head?.map .str
  | .target, s => if reg.isTarget s then some .object else none
  | .array elem, s => ((commaParts s).mapM (parseTypeText elem)).map .array
  | .map, _ => none

/-- `ParseType` on an object. -/
def parseTypeObject : AttrType → AttrValue → Option AttrValue
  | .integer, .int v => some (.int v)
  | .string, .str s => some (.str s)
  | .target, .str s => if reg.isTarget s then some .object else none
  | .target, .object => some .object
  | .array elem, .array items => (items.mapM (parseTypeObject elem)).map .array
  | .map, .object => some .object
  | _, _ => none

/-- The keys of a target: those of the configuration, the device, those of the kind. -/
def configKeys (kind : TargetKind) (config : Attrs) : Option (List String) := do
  let keys ← match config.lookup "keys" with
    | some (.array items) => items.mapM fun
        | .str s => some s
        | _ => none
    | some _ => none
    | none => some []
  let device := match config.lookup "device" with
    | some (.str s) => [s]
    | _ => []
  -- `DeduplicateKeys` keeps the first of equal keys
  some ((keys ++ device ++ kind.defaultKeys).foldl
    (fun acc k => if k ∈ acc then acc else acc ++ [k]) [])

/-- `FromConfig`, after `kind` has been looked up. -/
def fromConfig (kind : TargetKind) (config : Attrs) : Option Target := do
  match config.lookup "tag" with
  | some (.str _) | none => pure ()
  | _ => none
  let keys ← configKeys kind config
  let given ← (config.filter fun kv => kv.1 ≠ "tag" ∧ kv.1 ≠ "keys").mapM fun kv => do
    let info ← kind.key2vtype.lookup kv.1
    let value ← reg.parseTypeObject info kv.2
    some (kv.1, value)
  let missing := kind.key2default.filter fun kv => (given.lookup kv.1).isNone
  let attrs ← kind.preprocessor (given ++ missing)
  some ⟨kind, keys, attrs⟩

/-- The loop of `FromRawString` over the options. -/
def parseOptions (kind : TargetKind) : Attrs → List String → Option Attrs
  | config, [] => some config
  | config, option :: rest => do
    let s ← removePrefixDashes option
    let (key, value, usedNext) ← parseKVPair s (rest.head?.getD "")
    if key = "kind" ∨ (config.lookup key).isSome then none
    else do
      let info ← kind.key2vtype.lookup key
      let parsed ← reg.parseTypeText info value
      if usedNext then
        match rest with
        | _ :: rest => parseOptions kind (config ++ [(key, parsed)]) rest
        | [] => none
      else parseOptions kind (config ++ [(key, parsed)]) rest

def fromRawString (targetStr : String) : Option Target :=
  match words targetStr with
  | [] => none
  | name :: options => do
    let kind ← reg.kinds name
    let config ← reg.parseOptions kind [] options
    reg.fromConfig kind config

def fromString (s : String) : Option Target :=
  match reg.tags s with
  | some t => some t
  | none =>
    match s.toList with
    | '{' :: _ => reg.loadConfig s
    | _ => reg.fromRawString s

/-- The target's text is read as a target with this text. -/
def Rereads (t : Target) : Prop := ∃ t', reg.fromString t.str = some t' ∧ t'.str = t.str

end TargetRegistry

/-- The options that `TVM_REGISTER_TARGET_KIND` gives to every kind. -/
def commonOptions : List (String × AttrType) :=
  [("keys", .array .string), ("tag", .string), ("device", .string), ("model", .string),
    ("libs", .array .string), ("host", .target)]

/-- The kind `llvm`. -/
def llvmKind : TargetKind where
  name := "llvm"
  name_ne := by decide
  defaultKeys := ["cpu"]
  key2vtype := commonOptions ++
    [("mattr", .array .string), ("mcpu", .string), ("mtriple", .string),
      ("mfloat-abi", .string), ("system-lib", .integer), ("runtime", .string),
      ("link-params", .integer)]
  key2default := [("link-params", .int 0)]
  preprocessor := some

def llvmRegistry : TargetRegistry where
  kinds name := if name = "llvm" then some llvmKind else none
  tags _ := none
  loadConfig _ := none
  isTarget s := s = "llvm"

/-! ## Reading back -/

theorem wordsFrom_of_forall {l : List Char} (hl : ∀ c ∈ l, isSpace c = false) :
    ∀ {word : List Char}, word ++ l ≠ [] → wordsFrom word l = [ofList (word.reverse ++ l)] := by
  induction l with
  | nil => intro word h; simp_all [wordsFrom]
  | cons c l ih =>
    intro word _
    rw [wordsFrom, hl c List.mem_cons_self, if_neg Bool.false_ne_true,
      ih (fun c hc => hl c (List.mem_cons_of_mem _ hc)) (List.cons_ne_nil _ _)]
    simp

/-- One option with a value. -/
theorem TargetRegistry.parseOptions_cons {reg : TargetRegistry} {kind : TargetKind} {config : Attrs}
    {option s : String} (key value : String) {rest : List String} {info : AttrType}
    {parsed : AttrValue} (hdash : removePrefixDashes option = some s)
    (hpair : parseKVPair s (rest.head?.getD "") = some (key, value, false)) (hkind : key ≠ "kind")
    (hnew : config.lookup key = none) (htype : kind.key2vtype.lookup key = some info)
    (hvalue : reg.parseTypeText info value = some parsed) :
    reg.parseOptions kind config (option :: rest) =
      reg.parseOptions kind (config ++ [(key, parsed)]) rest := by
  simp [parseOptions, hdash, hpair, hkind, hnew, htype, hvalue]

/-- The target of the configuration `kind: llvm`, with a text for `mcpu`. -/
def llvmTarget (mcpu : String) : Target where
  kind := llvmKind
  keys := ["cpu"]
  attrs := [("mcpu", .str mcpu), ("link-params", .int 0)]

theorem str_of_sorted {mcpu : String} {attrs : Attrs}
    (h : attrs.insertionSort (fun a b => a.1 ≤ b.1) =
      [("link-params", .int 0), ("mcpu", .str mcpu)]) :
    Target.str ⟨llvmKind, ["cpu"], attrs⟩ = "llvm -keys=cpu -link-params=0 -mcpu=" ++ mcpu := by
  rw [Target.str, stringifyAttrsToRaw, h, ← toList_inj]
  simp [llvmKind, joinString, stringifyAttr, stringifyAtomicType]
  rfl

/-- **The text of a target is read back**, for every word given for `mcpu`. -/
theorem rereads_llvmTarget {mcpu : String} (hne : mcpu ≠ "")
    (hword : ∀ c ∈ mcpu.toList, isSpace c = false) : llvmRegistry.Rereads (llvmTarget mcpu) := by
  obtain ⟨l, rfl⟩ : ∃ l, mcpu = ofList l := ⟨mcpu.toList, (ofList_toList).symm⟩
  rw [toList_ofList] at hword
  have hl : l ≠ [] := by
    rintro rfl
    exact hne rfl
  have hstr : (llvmTarget (ofList l)).str =
      "llvm -keys=cpu -link-params=0 -mcpu=" ++ ofList l :=
    str_of_sorted (by simp [List.insertionSort, List.orderedInsert])
  have hwords : words (llvmTarget (ofList l)).str = ["llvm", "-keys=cpu", "-link-params=0",
      ofList ("-mcpu=".toList ++ l)] := by
    have htail : wordsFrom "=upcm-".toList l = [ofList ("-mcpu=".toList ++ l)] :=
      wordsFrom_of_forall hword (by simp)
    rw [hstr, words, toList_append, toList_ofList (l := l), ← htail]
    rfl
  have hvalue : words (ofList l) = [ofList l] := by
    rw [words, toList_ofList]
    exact wordsFrom_of_forall hword hl
  refine ⟨⟨llvmKind, ["cpu"], [("link-params", .int 0), ("mcpu", .str (ofList l))]⟩, ?_, ?_⟩
  · have hoptions : llvmRegistry.parseOptions llvmKind [] ["-keys=cpu", "-link-params=0",
        ofList ("-mcpu=".toList ++ l)] = some [("keys", .array [.str "cpu"]),
          ("link-params", .int 0), ("mcpu", .str (ofList l))] := by
      have hcpu : llvmRegistry.parseTypeText (.array .string) "cpu" =
          some (.array [.str "cpu"]) := by
        simp [TargetRegistry.parseTypeText, commaParts, commaPartsFrom, words, wordsFrom, isSpace]
      have hzero : llvmRegistry.parseTypeText .integer "0" = some (.int 0) := by
        simp [TargetRegistry.parseTypeText, show textToInt "0" = some 0 by decide]
      rw [TargetRegistry.parseOptions_cons "keys" "cpu" (s := "keys=cpu") (by decide)
          (by simp [parseKVPair]) (by decide) rfl rfl hcpu,
        TargetRegistry.parseOptions_cons "link-params" "0" (s := "link-params=0") (by decide)
          (by simp [parseKVPair]) (by decide) rfl rfl hzero,
        TargetRegistry.parseOptions_cons "mcpu" (ofList l) (s := ofList ("mcpu=".toList ++ l))
          (by simp [removePrefixDashes]) (by simp [parseKVPair, hl]) (by decide) rfl rfl
          (by simp [TargetRegistry.parseTypeText, hvalue]; rfl)]
      rfl
    obtain ⟨cs, hcs⟩ : ∃ cs, (llvmTarget (ofList l)).str.toList = 'l' :: cs := by
      rw [hstr, toList_append]
      exact ⟨_, rfl⟩
    have hkind : llvmRegistry.kinds "llvm" = some llvmKind := rfl
    simp only [TargetRegistry.fromString, show llvmRegistry.tags = fun _ => none from rfl, hcs,
      TargetRegistry.fromRawString, hwords, hkind, hoptions, Option.bind_eq_bind, Option.bind_some]
    rfl
  · rw [hstr]
    exact str_of_sorted (by simp [List.insertionSort])

end Pruner
