/-!
Schema change events: the table that changed and the definitions that a change carries.
-/

set_option autoImplicit false
set_option relaxedAutoImplicit false

namespace ChangeDdl

/-- The table that an event is about. -/
structure Source where
  schema : String
  table : String
deriving DecidableEq

inductive ChangeKind where
  | create
  | alter
  | drop
deriving DecidableEq

/-- A change whose kind is not given is a creation. -/
instance : Inhabited ChangeKind := ⟨.create⟩

namespace ChangeKind

def name : ChangeKind → String
  | create => "CREATE"
  | alter => "ALTER"
  | drop => "DROP"

/-- The kinds by their names. -/
def named : List (String × ChangeKind) :=
  [("CREATE", create), ("ALTER", alter), ("DROP", drop)]

theorem lookup_name (kind : ChangeKind) : named.lookup kind.name = some kind := by
  cases kind <;> rfl

end ChangeKind

structure Column where
  name : String
  typeName : String
  length : Option Int32
  defaultExpression : Option String
  optional : Bool
deriving DecidableEq

/-- The column specs are names joined by commas. -/
structure ForeignKey where
  name : String
  columns : String
  referencedSchema : String
  referencedTable : String
  referencedColumns : String
deriving DecidableEq

structure UniqueConstraint where
  name : String
  column : String
deriving DecidableEq

structure CheckConstraint where
  name : String
  condition : String
deriving DecidableEq

/-- The definition of a table. A repeated primary key column counts once. -/
structure Table where
  columns : List Column
  primaryKey : List String
  foreignKeys : List ForeignKey
  uniques : List UniqueConstraint
  checks : List CheckConstraint
deriving DecidableEq

namespace Table

def empty : Table := ⟨[], [], [], [], []⟩

def addColumn (t : Table) (column : Column) : Table :=
  { t with columns := t.columns ++ [column] }

def addPrimaryKey (t : Table) (column : String) : Table :=
  { t with primaryKey := t.primaryKey ++ [column] }

def addForeignKey (t : Table) (foreignKey : ForeignKey) : Table :=
  { t with foreignKeys := t.foreignKeys ++ [foreignKey] }

def addUnique (t : Table) (unique : UniqueConstraint) : Table :=
  { t with uniques := t.uniques ++ [unique] }

def addCheck (t : Table) (check : CheckConstraint) : Table :=
  { t with checks := t.checks ++ [check] }

end Table

structure TableChange where
  kind : ChangeKind
  table : Table
deriving DecidableEq

namespace TableChange

/-- A change of this kind with an empty table. -/
def ofKind (kind : ChangeKind) : TableChange := ⟨kind, Table.empty⟩

end TableChange

structure ChangeEvent where
  source : Source
  changes : List TableChange
deriving DecidableEq

namespace ChangeEvent

def addChange (e : ChangeEvent) (change : TableChange) : ChangeEvent :=
  { e with changes := e.changes ++ [change] }

end ChangeEvent

end ChangeDdl
