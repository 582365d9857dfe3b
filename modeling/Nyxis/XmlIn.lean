import Nyxis.Import

/-!
# XmlIn — the records of an XML document

`convert/xml_in.rs`, over the events that `quick-xml` reads from the bytes.  A record is an element with the record
tag; the attributes within it and the texts of its elements are its fields.
-/

namespace Nyxis

open Lib Lib.Outcome

inductive XmlAttrsMode where
  | asFields
  | prefixed
  deriving DecidableEq, Repr

structure XmlArgs extends ImportArgs where
  xmlRecordTag : Option String
  xmlAttrs : XmlAttrsMode
  xmlMaxDepth : ℕ
  deriving DecidableEq, Repr

namespace XmlIn

/-- The local name and the value of an attribute, as far as they can be decoded. -/
structure XmlAttr where
  key : Except String String
  value : Except String String

/-- An event of the reader.  Attributes that cannot be parsed are left out; `other` are comments, CDATA sections,
declarations and processing instructions. -/
inductive XmlEvent where
  | start (tag : Except String String) (attrs : List XmlAttr)
  | empty (tag : Except String String) (attrs : List XmlAttr)
  | stop
  | text (content : Except String String)
  | docType
  | other
  | error (msg : String)

def upperByte (b : UInt8) : UInt8 := if 0x61 ≤ b && b ≤ 0x7A then b - 0x20 else b

/-- The first place where the needle is, in upper or lower case. -/
def findBytesCi (haystack needle : Bytes) : Option ℕ :=
  if needle = [] ∨ haystack.length < needle.length then none
  else (List.range (haystack.length - needle.length + 1)).find? fun i =>
    ((haystack.drop i).take needle.length).map upperByte == needle.map upperByte

/-- A document type that declares entities is refused. -/
def checkForEntityExpansion (src : Bytes) : Res Unit :=
  match findBytesCi src (utf8 "<!DOCTYPE") with
  | some pos =>
    ensure ((findBytesCi (src.drop pos) (utf8 "<!ENTITY")).isNone ∧ (findBytesCi (src.drop pos) (utf8 "ENTITY ")).isNone)
      .convertEntityExpansion
  | none => .ok ()

/-- What was decoded, or the error of the decoder. -/
def decoded (x : Except String String) : Res String :=
  match x with
  | .ok s => .ok s
  | .error msg => .err (.convertParseError 0 msg)

def collectAttrs (mode : XmlAttrsMode) (attrs : List XmlAttr) : Res (List (String × String)) :=
  attrs.mapM fun attr => do
    let key ← decoded attr.key
    let val ← decoded attr.value
    .ok (match mode with
      | .asFields => key
      | .prefixed => "@" ++ key, val)

def pathKey (parts : List String) : String := String.intercalate "." parts

structure ParseState where
  depth : ℕ
  inRecord : Bool
  recordDepth : ℕ
  currentFields : List (String × String)
  currentPath : List String
  currentTextKey : Option String
  /-- The records that were passed on. -/
  records : List (List (String × String))
  deriving DecidableEq, Repr

def ParseState.new : ParseState := ⟨0, false, 0, [], [], none, []⟩

section

variable (args : XmlArgs) (recordTag : String)

def parseEvent (s : ParseState) : XmlEvent → Res ParseState
  | .docType => .err .convertEntityExpansion
  | .start tag attrs => do
    let s := { s with depth := s.depth + 1 }
    ensure (¬ s.depth > min args.xmlMaxDepth args.maxDepth) .convertDepthExceeded
    let tag ← decoded tag
    if !s.inRecord && tag == recordTag then do
      let fields ← collectAttrs args.xmlAttrs attrs
      .ok { s with inRecord := true, recordDepth := s.depth, currentFields := fields, currentPath := [] }
    else if s.inRecord then do
      let path := s.currentPath ++ [tag]
      let fields ← collectAttrs args.xmlAttrs attrs
      .ok { s with currentPath := path, currentFields := s.currentFields ++ fields, currentTextKey := some (pathKey path) }
    else .ok s
  | .empty tag attrs => do
    let tag ← decoded tag
    if !s.inRecord && tag == recordTag then do
      let fields ← collectAttrs args.xmlAttrs attrs
      .ok { s with records := s.records ++ [fields] }
    else if s.inRecord then do
      let fields ← collectAttrs args.xmlAttrs attrs
      .ok { s with currentFields := s.currentFields ++ fields }
    else .ok s
  | .stop =>
    let s' :=
      if s.inRecord ∧ s.depth = s.recordDepth then
        { s with records := s.records ++ [s.currentFields], currentFields := [], inRecord := false }
      else if s.inRecord ∧ s.currentPath ≠ [] then
        { s with currentPath := s.currentPath.dropLast, currentTextKey := none }
      else s
    .ok { s' with depth := s.depth - 1 }
  | .text content =>
    if s.inRecord then do
      let text ← decoded content
      let trimmed := String.ofList (trim text.toList)
      match s.currentTextKey with
      | some key => .ok (if trimmed.isEmpty then s else { s with currentFields := s.currentFields ++ [(key, trimmed)] })
      | none => .ok s
    else .ok s
  | .other => .ok s
  | .error msg => .err (.convertParseError 0 msg)

/-- The fields of every record, in the order in which the records end. -/
def parseRecords (events : List XmlEvent) : Res (List (List (String × String))) := do
  let s ← events.foldlM (parseEvent args recordTag) ParseState.new
  .ok s.records

end

-- how `quick-xml` splits bytes into events
variable (readEvents : Bytes → List XmlEvent)

/-- The schema of the records of a document. -/
def inferSchema (src : Bytes) (args : XmlArgs) : Res InferredSchema :=
  match args.xmlRecordTag with
  | none => .err (.convertParseError 0 "XML import requires --xml-record-tag")
  | some recordTag => do
    checkForEntityExpansion src
    let records ← parseRecords args recordTag (readEvents src)
    (records.foldl InferredSchema.merge InferredSchema.new).finalize args.conflict

end XmlIn

end Nyxis
