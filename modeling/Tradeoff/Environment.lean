import Tradeoff.Table

/-!
# Environments

An environment binds symbols to their values over the samples of a batch. A quantity that is the
same for every sample is bound to a constant column, which stays one value until it has to be
written out.
-/

namespace Tradeoff

/-- The double that is not a number. -/
def notANumber : Float := 0 / 0

/-- The values of a scalar quantity over the samples of a batch. -/
inductive Column where
  /-- The same value for every sample. -/
  | constant (value : Float)
  /-- A value for each sample. -/
  | samples (values : Array Float)
deriving BEq, DecidableEq

namespace Column

/-- The value for a sample; not a number beyond the last one. -/
def get : Column → Nat → Float
  | constant value, _ => value
  | samples values, index => values[index]?.getD notANumber

/-- The column of the images of the values. -/
def map (f : Float → Float) : Column → Column
  | constant value => .constant (f value)
  | samples values => .samples (values.map f)

/-- The values written out for so many samples. -/
def broadcast (rows : Nat) : Column → Array Float
  | constant value => Array.replicate rows value
  | samples values => values

end Column

/-- What a symbol stands for. -/
inductive Binding where
  /-- A scalar quantity. -/
  | scalar (column : Column)
  /-- A vector variable, by its components. -/
  | vector (components : List Column)
  /-- A truth value, which no arithmetic takes. -/
  | flag (value : Bool)
deriving BEq, DecidableEq

/-- The symbols that expressions may use, with their values over a batch. -/
structure Environment where
  /-- The number of samples. -/
  rows : Nat
  /-- The bindings in the order in which the symbols were first bound. -/
  bindings : SymbolMap Binding

namespace Environment

/-- The environment without bindings. -/
def empty (rows : Nat) : Environment := ⟨rows, .empty⟩

/-- What a symbol is bound to. -/
def find? (env : Environment) (symbol : String) : Option Binding := env.bindings.find? symbol

/-- The bound symbols in order. -/
def symbols (env : Environment) : List String := env.bindings.keys

/-- Binds a symbol. A symbol bound before keeps its place and loses its old binding. -/
def bind (env : Environment) (symbol : String) (binding : Binding) : Environment :=
  ⟨env.rows, env.bindings.set symbol binding⟩

/-- Binds symbols one after another. -/
def bindAll (env : Environment) (bindings : List (String × Binding)) : Environment :=
  bindings.foldl (fun env binding ↦ env.bind binding.1 binding.2) env

/-- The environment that binds every column of a table. -/
def ofTable (t : Table) : Environment :=
  (empty t.rows).bindAll (t.columns.entries.map fun entry ↦ (entry.1, .scalar (.samples entry.2)))

end Environment

end Tradeoff
