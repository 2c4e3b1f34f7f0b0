/-!
Dialects of SQL: the quote around names and the texts between the parts of a statement.
-/

set_option autoImplicit false
set_option relaxedAutoImplicit false

namespace ChangeDdl

/-- The quote is put around a name as it is; it is not escaped inside. -/
structure Dialect where
  quote : String
  statementSeparator : String
  clausePrefix : String
  groupSeparator : String
  listSeparator : String
deriving DecidableEq

namespace Dialect

/-- Names in double quotes, statements separated by semicolons, and each clause on a line of its
own behind a tab. -/
def standard : Dialect where
  quote := "\""
  statementSeparator := ";"
  clausePrefix := "\n\t"
  groupSeparator := ","
  listSeparator := ", "

/-- The texts of a dialect. -/
inductive Part where
  | quote
  | statementSeparator
  | clausePrefix
  | groupSeparator
  | listSeparator
deriving DecidableEq

namespace Part

def name : Part → String
  | quote => "quote"
  | statementSeparator => "statement_separator"
  | clausePrefix => "clause_prefix"
  | groupSeparator => "group_separator"
  | listSeparator => "list_separator"

def get : Part → Dialect → String
  | quote, d => d.quote
  | statementSeparator, d => d.statementSeparator
  | clausePrefix, d => d.clausePrefix
  | groupSeparator, d => d.groupSeparator
  | listSeparator, d => d.listSeparator

end Part

/-- The dialect with another text in one place. Nothing is checked. -/
def set (d : Dialect) (part : Part) (text : String) : Dialect :=
  match part with
  | .quote => { d with quote := text }
  | .statementSeparator => { d with statementSeparator := text }
  | .clausePrefix => { d with clausePrefix := text }
  | .groupSeparator => { d with groupSeparator := text }
  | .listSeparator => { d with listSeparator := text }

/-- The texts that a dialect must not leave empty. -/
inductive Required where
  | quote
  | statementSeparator
  | groupSeparator
deriving DecidableEq

namespace Required

def all : List Required := [quote, statementSeparator, groupSeparator]

def name : Required → String
  | quote => "quote"
  | statementSeparator => "statement_separator"
  | groupSeparator => "group_separator"

def get : Required → Dialect → String
  | quote, d => d.quote
  | statementSeparator, d => d.statementSeparator
  | groupSeparator, d => d.groupSeparator

end Required

/-- The first required text that is empty. -/
def missing? (d : Dialect) : Option Required :=
  Required.all.find? fun r => r.get d = ""

/-- Succeeds when no required text is empty. -/
def validate (d : Dialect) : Except Required Unit :=
  match d.missing? with
  | some r => .error r
  | none => .ok ()

end Dialect

end ChangeDdl
