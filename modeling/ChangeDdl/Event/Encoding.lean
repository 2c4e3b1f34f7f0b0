import ChangeDdl.Error
import ChangeDdl.Json.Shape.Decode
import ChangeDdl.Json.Shape.Encode
import ChangeDdl.Json.Shape.Read

/-!
How events appear in JSON. `ChangeEvent.decode` takes an event from a feed, which may wrap it in
an envelope with the event as its payload; `ChangeEvent.encode` writes it bare.
-/

set_option autoImplicit false
set_option relaxedAutoImplicit false

namespace ChangeDdl

open Json

def Source.shape : Shape Source :=
  .record "Source" false
    (.cons "schema" (.atom .text) .required <|
     .cons "table" (.atom .text) .required .nil)
    (fun (schema, table, ()) => ⟨schema, table⟩)
    (fun s => (s.schema, s.table, ()))
    (fun _ => rfl)

def ChangeKind.shape : Shape ChangeKind :=
  .choice ChangeKind.named ChangeKind.name ChangeKind.lookup_name

/-- An expression that is absent is left out in writing; any other field is written. -/
def Column.shape : Shape Column :=
  .record "Column" false
    (.cons "name" (.atom .text) .required <|
     .cons "typeName" (.atom .text) .required <|
     .cons "length" (.nullable (.atom .integer32)) (.defaulted none) <|
     .cons "defaultValueExpression" (.nullable (.atom .text))
       (.sparse none Option.isNone fun _ => Option.isNone_iff_eq_none.mp) <|
     .cons "optional" (.atom .boolean) (.defaulted false) .nil)
    (fun (name, typeName, length, defaultExpression, optional, ()) =>
      ⟨name, typeName, length, defaultExpression, optional⟩)
    (fun c => (c.name, c.typeName, c.length, c.defaultExpression, c.optional, ()))
    (fun _ => rfl)

def ForeignKey.shape : Shape ForeignKey :=
  .record "ForeignKey" false
    (.cons "fkName" (.atom .text) .required <|
     .cons "fkColumnName" (.atom .text) .required <|
     .cons "pktableSchem" (.atom .text) .required <|
     .cons "pktableName" (.atom .text) .required <|
     .cons "pkColumnName" (.atom .text) .required .nil)
    (fun (name, columns, schema, table, referenced, ()) => ⟨name, columns, schema, table, referenced⟩)
    (fun k => (k.name, k.columns, k.referencedSchema, k.referencedTable, k.referencedColumns, ()))
    (fun _ => rfl)

def UniqueConstraint.shape : Shape UniqueConstraint :=
  .record "UniqueConstraint" false
    (.cons "indexName" (.atom .text) .required <|
     .cons "columnName" (.atom .text) .required .nil)
    (fun (name, column, ()) => ⟨name, column⟩)
    (fun u => (u.name, u.column, ()))
    (fun _ => rfl)

def CheckConstraint.shape : Shape CheckConstraint :=
  .record "CheckConstraint" false
    (.cons "indexName" (.atom .text) .required <|
     .cons "condition" (.atom .text) .required .nil)
    (fun (name, condition, ()) => ⟨name, condition⟩)
    (fun c => (c.name, c.condition, ()))
    (fun _ => rfl)

def Table.shape : Shape Table :=
  .record "Table" false
    (.cons "columns" (.list Column.shape) (.defaulted []) <|
     .cons "primaryKeyColumnNames" (.list (.atom .text)) (.defaulted []) <|
     .cons "foreignKeyColumns" (.list ForeignKey.shape) (.defaulted []) <|
     .cons "uniqueColumns" (.list UniqueConstraint.shape) (.defaulted []) <|
     .cons "checkColumns" (.list CheckConstraint.shape) (.defaulted []) .nil)
    (fun (columns, primaryKey, foreignKeys, uniques, checks, ()) =>
      ⟨columns, primaryKey, foreignKeys, uniques, checks⟩)
    (fun t => (t.columns, t.primaryKey, t.foreignKeys, t.uniques, t.checks, ()))
    (fun _ => rfl)

def TableChange.shape : Shape TableChange :=
  .record "TableChange" false
    (.cons "type" ChangeKind.shape (.defaulted default) <|
     .cons "table" Table.shape .required .nil)
    (fun (kind, table, ()) => ⟨kind, table⟩)
    (fun c => (c.kind, c.table, ()))
    (fun _ => rfl)

def ChangeEvent.shape : Shape ChangeEvent :=
  .record "ChangeEvent" false
    (.cons "source" Source.shape .required <|
     .cons "tableChanges" (.list TableChange.shape) (.defaulted []) .nil)
    (fun (source, changes, ()) => ⟨source, changes⟩)
    (fun e => (e.source, e.changes, ()))
    (fun _ => rfl)

/-- What an envelope holds. A value that is no envelope holds itself. -/
def payload (v : Value) : Value :=
  match v with
  | .object members => (Members.last? "payload" members).getD v
  | v => v

namespace ChangeEvent

/-- The event that a value stands for, in an envelope or bare. -/
def ofValue (v : Value) : Except Mismatch ChangeEvent :=
  shape.decode (payload v)

/-- The event that a text of the feed holds. -/
def decode (text : String) : Except Error ChangeEvent := do
  let v ← (Value.parse text).mapError .decode
  (ofValue v).mapError fun what => .decode (.ofMismatch what)

def encode (e : ChangeEvent) : String :=
  shape.print e

end ChangeEvent

end ChangeDdl
