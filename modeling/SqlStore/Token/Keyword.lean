/-!
# Reserved words

The kinds of tokens, and the words that stand for themselves whatever the case they are written in.
-/

namespace SqlStore

inductive TokenKind
  | keyword
  | symbol
  | identifier
  | string
  | numeric
  | bool
  | null
deriving DecidableEq

/-- The reserved words; `fromWord`, `whereWord`, `asWord` and `onWord` are the words FROM, WHERE, AS and ON. -/
inductive Keyword
  | select
  | insert
  | values
  | table
  | create
  | drop
  | whereWord
  | fromWord
  | into
  | text
  | boolean
  | int
  | and
  | or
  | asWord
  | true
  | false
  | unique
  | index
  | onWord
  | primaryKey
  | null
  | limit
  | offset
deriving DecidableEq

namespace Keyword

/-- Every reserved word. -/
def all : List Keyword :=
  [.select, .insert, .values, .table, .create, .drop, .whereWord, .fromWord, .into, .text, .boolean, .int, .and,
   .or, .asWord, .true, .false, .unique, .index, .onWord, .primaryKey, .null, .limit, .offset]

/-- The lower-case spelling. -/
def spelling : Keyword → String
  | .select => "select"
  | .insert => "insert"
  | .values => "values"
  | .table => "table"
  | .create => "create"
  | .drop => "drop"
  | .whereWord => "where"
  | .fromWord => "from"
  | .into => "into"
  | .text => "text"
  | .boolean => "boolean"
  | .int => "int"
  | .and => "and"
  | .or => "or"
  | .asWord => "as"
  | .true => "true"
  | .false => "false"
  | .unique => "unique"
  | .index => "index"
  | .onWord => "on"
  | .primaryKey => "primary key"
  | .null => "null"
  | .limit => "limit"
  | .offset => "offset"

/-- The words that stand for a value are not keyword tokens. -/
def kind : Keyword → TokenKind
  | .true | .false => .bool
  | .null => .null
  | _ => .keyword

end Keyword

end SqlStore
