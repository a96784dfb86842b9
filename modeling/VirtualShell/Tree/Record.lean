import VirtualShell.Json.Writer
import VirtualShell.Text.Base64
import VirtualShell.Tree.Inode

/-!
# Stored records

A record of the tree as a JSON object, and back. Content that is no UTF-8 is written in base 64 and
says so under `encoding`. Reading fills in what is missing: the usual mode of the kind, owner 0, the
change time for the modification time, and that for the access time. A size is not read but counted.
-/

namespace VirtualShell

/-- Why a JSON value is no record. -/
inductive RecordError
  /-- A field is missing or of the wrong shape. -/
  | malformed
  | unknownKind (name path : Bytes)
  | undecodable (path : Bytes)
  deriving DecidableEq

namespace RecordError

/-- The text that stands for what the reader says about a malformed document. -/
def malformedText : Bytes := ascii "<json>"

def message : RecordError → Bytes
  | malformed => malformedText
  | unknownKind name path => ascii "unknown inode type '" ++ name ++ ascii "' for " ++ path
  | undecodable path => ascii "invalid base64 content for " ++ path

end RecordError

namespace Inode

/-- How content is written as a JSON string. -/
def encodingName : Bytes := ascii "base64"

/-- The fields that hold the content. -/
def contentFields : Option Bytes → List (Bytes × Json)
  | none => [(ascii "content", .null)]
  | some content =>
    if Utf8.scan content = .valid then [(ascii "content", .string content)]
    else
      [(ascii "content", .string (Base64.encode content)),
        (ascii "encoding", .string encodingName)]

/-- The record as JSON. The field of the size has 64 bits. -/
def toJson (node : Inode) : Json :=
  Json.ofFields ([
    (ascii "path", .string node.path),
    (ascii "type", .string node.kind.name),
    (ascii "mode", .integer node.mode.toNat),
    (ascii "uid", .integer node.uid.toNat),
    (ascii "gid", .integer node.gid.toNat),
    (ascii "size", .integer node.size.toUInt64.toNat),
    (ascii "ctime", .integer node.changed),
    (ascii "mtime", .integer node.modified),
    (ascii "atime", .integer node.accessed)] ++ contentFields node.content?)

/-- What a JSON reader's failure is to a record. -/
def readField {α : Type} (read : Except Json.Mismatch α) : Except RecordError α :=
  read.mapError fun _ => .malformed

/-- Reads the content of a record that is no directory. Only a string is content. -/
def readContent (j : Json) (path : Bytes) : Except RecordError (Option Bytes) :=
  match j.field? "content" with
  | some (.string text) => do
    let encoding ← readField (j.fieldOr "encoding" [] Json.asString)
    if encoding = encodingName then
      match Base64.decode? text with
      | some content => return some content
      | none => throw (.undecodable path)
    else return some text
  | _ => return none

/-- Reads a record. -/
def ofJson (j : Json) : Except RecordError Inode := do
  let path ← readField (j.field "path" >>= Json.asString)
  let kindName ← readField (j.field "type" >>= Json.asString)
  let kind ← match InodeKind.ofName? kindName with
    | some kind => pure kind
    | none => throw (.unknownKind kindName path)
  let usualMode : Nat := if kind = .directory then 0o755 else 0o644
  let mode ← readField (j.fieldOr "mode" usualMode Json.asUInt32)
  let uid ← readField (j.fieldOr "uid" 0 Json.asUInt32)
  let gid ← readField (j.fieldOr "gid" 0 Json.asUInt32)
  let changed ← readField (j.fieldOr "ctime" 0 Json.asInt64)
  let modified ← readField (j.fieldOr "mtime" changed Json.asInt64)
  let accessed ← readField (j.fieldOr "atime" modified Json.asInt64)
  let content ← if kind = .directory then pure none else readContent j path
  return {
    path, kind
    size := (content.map List.length).getD 0
    content? := content
    mode := mode.toUInt32
    uid := uid.toUInt32
    gid := gid.toUInt32
    changed, modified, accessed }

end Inode

end VirtualShell
