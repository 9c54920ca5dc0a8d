/-!
# Log entries

Problems in a script are always logged. The course of a script is traced by category, and a filter
decides which of those entries are kept.

## Main definitions

* `LogEntry` — a line of the log
* `DebugFilter` — the levels and categories that are kept, with `DebugFilter.allows`
-/

namespace Novella

/-- The weight of a log entry, from the lightest to the heaviest. -/
inductive LogLevel where
  /-- Every change of state. -/
  | trace
  /-- What helps to find a mistake. -/
  | debug
  /-- Important changes. -/
  | info
  /-- What may be a mistake. -/
  | warn
  /-- Mistakes. -/
  | error
deriving DecidableEq, Repr

/-- The rank of a level; heavier levels have the larger ranks. -/
def LogLevel.rank : LogLevel → Nat
  | trace => 0
  | debug => 1
  | info => 2
  | warn => 3
  | error => 4

/-- What a traced entry is about. -/
inductive LogCategory where
  /-- Lines and the loading of scenes. -/
  | engine
  /-- Jumps and branches. -/
  | flow
  /-- Changes of variables. -/
  | vars
  /-- The reveal of text. -/
  | text
  /-- Saves and the history. -/
  | storage
deriving DecidableEq, Repr

/-- All categories. -/
def LogCategory.all : List LogCategory := [engine, flow, vars, text, storage]

/-- The name of a category. -/
def LogCategory.name : LogCategory → String
  | engine => "engine"
  | flow => "flow"
  | vars => "variables"
  | text => "text"
  | storage => "storage"

/-- The target that entries of the category are logged under. -/
def LogCategory.target (c : LogCategory) : String := "shiori::" ++ c.name

/-- One entry of the log. -/
structure LogEntry where
  /-- Its weight. -/
  level : LogLevel
  /-- What it is about, if it was traced. -/
  category : Option LogCategory
  /-- Its text. -/
  text : String
deriving DecidableEq, Repr

/-- Which traced entries are kept. -/
structure DebugFilter where
  /-- Whether any are. -/
  enabled : Bool := false
  /-- The lightest level kept. -/
  level : LogLevel := .debug
  /-- The categories kept. -/
  categories : List LogCategory := [.engine, .flow]
deriving DecidableEq, Repr

namespace DebugFilter

instance : Inhabited DebugFilter := ⟨{}⟩

/-- The filter that keeps everything. -/
def verbose : DebugFilter := ⟨true, .trace, LogCategory.all⟩

/-- Whether an entry is kept. -/
def allows (f : DebugFilter) (c : LogCategory) (l : LogLevel) : Bool :=
  f.enabled && f.level.rank ≤ l.rank && f.categories.contains c

/-- The entry, as a list, if the filter keeps it. -/
def entry (f : DebugFilter) (c : LogCategory) (l : LogLevel) (text : String) : List LogEntry :=
  if f.allows c l then [⟨l, some c, text⟩] else []

end DebugFilter

end Novella
