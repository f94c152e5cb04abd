import SqlStore.Column
import SqlStore.Expr.Operator
import SqlStore.Script

/-!
# Errors

Why a statement or a script fails, by cause, and the message for each cause.
-/

namespace SqlStore

/-- The two clauses of a selection that take a row count. -/
inductive CountClause
  | limit
  | offset
deriving DecidableEq

namespace CountClause

def name : CountClause → String
  | .limit => "LIMIT"
  | .offset => "OFFSET"

end CountClause

/-- What is wrong with operands: two types that an operator does not take, a row count that is no integer, or a
row count below zero. -/
inductive OperandProblem
  | types (operator : Operator) (left right : SqlType)
  | notInt (clause : CountClause) (found : SqlType)
  | negative (clause : CountClause)
deriving DecidableEq

namespace OperandProblem

def message : OperandProblem → String
  | .types op left right => op.lexeme.text ++ ": " ++ left.name ++ " and " ++ right.name
  | .notInt clause found => clause.name ++ ": expected int, got " ++ found.name
  | .negative clause => clause.name ++ ": must not be negative"

end OperandProblem

/-- Why a statement fails. The last cause is a fault: a place is looked up in a list that ends before it. -/
inductive StoreError
  | invalidDatatype (type : String)
  | noSuchTable (table : String)
  | tableExists (table : String)
  | missingValues (expected found : Nat)
  | noSuchColumn (column : String)
  | invalidOperands (problem : OperandProblem)
  | invalidCell
  | invalidNumeral (numeral : String)
  | notAQuery
  | parametersNotSupported
  | outOfBounds (place length : Nat)
deriving DecidableEq

namespace StoreError

def message : StoreError → String
  | .invalidDatatype type => "Invalid datatype: " ++ type
  | .noSuchTable table => "Table does not exist: " ++ table
  | .tableExists table => "Table already exists: " ++ table
  | .missingValues expected found =>
      "Missing values: expected " ++ toString expected ++ ", found " ++ toString found
  | .noSuchColumn column => "Column does not exist: " ++ column
  | .invalidOperands problem => "Invalid operands for " ++ problem.message
  | .invalidCell => "Invalid cell"
  | .invalidNumeral numeral => "Invalid numeric literal: " ++ numeral
  | .notAQuery => "Statement is not a query"
  | .parametersNotSupported => "Parameterized queries are not supported"
  | .outOfBounds place length =>
      "index out of bounds: the len is " ++ toString length ++ " but the index is " ++ toString place

end StoreError

/-- Why a source text cannot be read or run. -/
inductive Error
  | source (error : SourceError)
  | store (error : StoreError)
deriving DecidableEq

namespace Error

def message : Error → String
  | .source e => e.message
  | .store e => e.message

end Error

end SqlStore
