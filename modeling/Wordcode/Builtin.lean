namespace Wordcode

/-! # Builtin functions

The functions that a program finds under their names without defining them, and their
documentation. What they do is defined with the machine's operations; here are their names, which
of them take keyword arguments, and the reference table.
-/

/-- A builtin function. -/
inductive Builtin
  | abs | all | any | bool | callable | dict | dir | enumerate
  | filter | float | getMethod | int | isInstance | iter | len | list
  | map | max | min | next | print | range | repr | reversed
  | sorted | str | sum | tuple | type | zip
  deriving DecidableEq, Repr, Inhabited

namespace Builtin

/-- An entry of the reference table. -/
structure Doc where
  doc : String
  /-- Parameters; a question mark marks an optional one. -/
  parameters : List String
  returns : String
  sample : String
  deriving DecidableEq, Repr, Inhabited

/-- All builtins in alphabetical order. -/
def table : List Builtin :=
  [abs, all, any, bool, callable, dict, dir, enumerate, filter, float, getMethod, int,
    isInstance, iter, len, list, map, max, min, next, print, range, repr, reversed, sorted, str,
    sum, tuple, type, zip]

/-- The name of a builtin. -/
def name : Builtin → String
  | abs => "abs"
  | all => "all"
  | any => "any"
  | bool => "bool"
  | callable => "callable"
  | dict => "dict"
  | dir => "dir"
  | enumerate => "enumerate"
  | filter => "filter"
  | float => "float"
  | getMethod => "getattr"
  | int => "int"
  | isInstance => "isinstance"
  | iter => "iter"
  | len => "len"
  | list => "list"
  | map => "map"
  | max => "max"
  | min => "min"
  | next => "next"
  | print => "print"
  | range => "range"
  | repr => "repr"
  | reversed => "reversed"
  | sorted => "sorted"
  | str => "str"
  | sum => "sum"
  | tuple => "tuple"
  | type => "type"
  | zip => "zip"

/-- The builtin with a given name. -/
def ofName? (s : String) : Option Builtin :=
  table.find? (·.name = s)

/-- Whether a builtin takes keyword arguments. -/
def takesKeywords : Builtin → Bool
  | dict | enumerate | max | min | print | sorted => true
  | _ => false

/-- The reference table. -/
def reference : Builtin → Doc
  | abs => ⟨"Return the absolute value of a number", ["x"], "int|float", "abs(-3)"⟩
  | all =>
    ⟨"Return True if every item of the iterable is truthy", ["iterable"],
      "bool", "all([True, 1, 'yes'])"⟩
  | any =>
    ⟨"Return True if any item of the iterable is truthy", ["iterable"],
      "bool", "any([False, 0, 'yes'])"⟩
  | bool => ⟨"Convert a value to a bool", ["value?"], "bool", "bool(1)"⟩
  | callable => ⟨"Return True if the value can be called", ["value"], "bool", "callable(len)"⟩
  | dict =>
    ⟨"Build a dict from a mapping or pairs plus keyword arguments", ["mapping?", "**kwargs"],
      "dict", "dict(a=1, b=2)"⟩
  | dir => ⟨"List the method names of a value", ["value"], "list", "dir('abc')"⟩
  | enumerate =>
    ⟨"Iterate over (index, item) pairs", ["iterable", "start=0"],
      "iterator", "list(enumerate(['a', 'b'], 1))"⟩
  | filter =>
    ⟨"Iterate over the items for which fn returns a truthy value", ["fn", "iterable"],
      "iterator", "list(filter(None, [0, 1, 2]))"⟩
  | float => ⟨"Convert a number or string to a float", ["value?"], "float", "float('2.5')"⟩
  | getMethod =>
    ⟨"Return a named method of a value, or a default", ["value", "name", "default?"],
      "any", "getattr([], 'append')"⟩
  | int => ⟨"Convert a number or string to an int", ["value?"], "int", "int('42')"⟩
  | isInstance =>
    ⟨"Return True if the value is of the given type or types", ["value", "types"],
      "bool", "isinstance(True, int)"⟩
  | iter => ⟨"Return an iterator over an iterable", ["iterable"], "iterator", "iter([1, 2])"⟩
  | len => ⟨"Return the number of items in a container", ["container"], "int", "len([1, 2, 3])"⟩
  | list => ⟨"Build a list from an iterable", ["iterable?"], "list", "list(range(3))"⟩
  | map =>
    ⟨"Iterate over fn applied to the items of the iterables", ["fn", "*iterables"],
      "iterator", "list(map(str, [1, 2]))"⟩
  | max => ⟨"Return the largest item", ["*items", "key=None", "default?"], "any", "max([3, 1, 2])"⟩
  | min => ⟨"Return the smallest item", ["*items", "key=None", "default?"], "any", "min(3, 1, 2)"⟩
  | next =>
    ⟨"Advance an iterator, returning the default when exhausted", ["iterator", "default?"],
      "any", "next(iter([1]))"⟩
  | print =>
    ⟨"Write values to standard output", ["*values", "sep=' '", "end='\\n'"],
      "None", "print('a', 'b', sep='-')"⟩
  | range =>
    ⟨"Return an immutable sequence of integers", ["start?", "stop", "step?"],
      "range", "range(0, 10, 2)"⟩
  | repr => ⟨"Return the printable representation of a value", ["value"], "str", "repr('x')"⟩
  | reversed =>
    ⟨"Iterate over a sequence in reverse order", ["sequence"],
      "iterator", "list(reversed([1, 2, 3]))"⟩
  | sorted =>
    ⟨"Return a new sorted list of the items of an iterable",
      ["iterable", "key=None", "reverse=False"], "list", "sorted([3, 1, 2], reverse=True)"⟩
  | str => ⟨"Convert a value to a str", ["value?"], "str", "str(42)"⟩
  | sum =>
    ⟨"Add up the items of an iterable", ["iterable", "start=0"], "int|float", "sum([1, 2, 3])"⟩
  | tuple => ⟨"Build a tuple from an iterable", ["iterable?"], "tuple", "tuple([1, 2])"⟩
  | type => ⟨"Return the type name of a value", ["value"], "str", "type(1.5)"⟩
  | zip =>
    ⟨"Iterate over tuples pairing the items of the iterables", ["*iterables"],
      "iterator", "list(zip([1, 2], 'ab'))"⟩

end Builtin

end Wordcode
