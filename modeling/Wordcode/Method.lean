namespace Wordcode

/-! # Methods

Named operations on strings, lists, dicts and tuples. The signature of a method says what it is
called with and documents it.
-/

inductive StrMethod
  | count | endswith | find | join | lower | lstrip | replace | rstrip | split | startswith
  | strip | upper
  deriving DecidableEq, Repr, Inhabited

inductive ListMethod
  | append | clear | copy | count | extend | index | insert | pop | remove | reverse | sort
  deriving DecidableEq, Repr, Inhabited

inductive DictMethod
  | clear | copy | get | items | keys | pop | setdefault | update | values
  deriving DecidableEq, Repr, Inhabited

inductive TupleMethod
  | count | index
  deriving DecidableEq, Repr, Inhabited

/-- A method of some type. -/
inductive Method
  | str (m : StrMethod)
  | list (m : ListMethod)
  | dict (m : DictMethod)
  | tuple (m : TupleMethod)
  deriving DecidableEq, Repr, Inhabited

/-- What a method is called with, and its documentation. -/
structure Signature where
  name : String
  doc : String
  required : List String := []
  optional : List String := []
  returns : String
  takesKeywords : Bool := false
  deriving DecidableEq, Repr, Inhabited

/-- All parameters, required ones first. -/
def Signature.parameters (s : Signature) : List String := s.required ++ s.optional

namespace StrMethod

def all : List StrMethod :=
  [count, endswith, find, join, lower, lstrip, replace, rstrip, split, startswith, strip, upper]

def signature : StrMethod → Signature
  | count =>
    { name := "count", doc := "Count non-overlapping occurrences of a substring"
      required := ["sub"], returns := "int" }
  | endswith =>
    { name := "endswith", doc := "Check if string ends with suffix"
      required := ["suffix"], returns := "bool" }
  | find =>
    { name := "find", doc := "Find the first index of a substring (-1 if not found)"
      required := ["sub"], returns := "int" }
  | join =>
    { name := "join", doc := "Join the strings of an iterable using this string as separator"
      required := ["items"], returns := "str" }
  | lower => { name := "lower", doc := "Convert to lowercase", returns := "str" }
  | lstrip =>
    { name := "lstrip", doc := "Remove leading whitespace or the given characters"
      optional := ["chars"], returns := "str" }
  | replace =>
    { name := "replace", doc := "Replace all occurrences of old with new"
      required := ["old", "new"], returns := "str" }
  | rstrip =>
    { name := "rstrip", doc := "Remove trailing whitespace or the given characters"
      optional := ["chars"], returns := "str" }
  | split =>
    { name := "split", doc := "Split by separator, or by runs of whitespace"
      optional := ["sep"], returns := "list" }
  | startswith =>
    { name := "startswith", doc := "Check if string starts with prefix"
      required := ["prefix"], returns := "bool" }
  | strip =>
    { name := "strip", doc := "Remove leading and trailing whitespace or the given characters"
      optional := ["chars"], returns := "str" }
  | upper => { name := "upper", doc := "Convert to uppercase", returns := "str" }

end StrMethod

namespace ListMethod

def all : List ListMethod :=
  [append, clear, copy, count, extend, index, insert, pop, remove, reverse, sort]

def signature : ListMethod → Signature
  | append =>
    { name := "append", doc := "Add item to end of list", required := ["item"]
      returns := "None" }
  | clear => { name := "clear", doc := "Remove all items", returns := "None" }
  | copy => { name := "copy", doc := "Create a shallow copy", returns := "list" }
  | count =>
    { name := "count", doc := "Count occurrences of item", required := ["item"]
      returns := "int" }
  | extend =>
    { name := "extend", doc := "Add all items from an iterable", required := ["items"]
      returns := "None" }
  | index =>
    { name := "index", doc := "Find first index of item", required := ["item"]
      returns := "int" }
  | insert =>
    { name := "insert", doc := "Insert item at index", required := ["index", "item"]
      returns := "None" }
  | pop =>
    { name := "pop", doc := "Remove and return item at index (default last)"
      optional := ["index"], returns := "any" }
  | remove =>
    { name := "remove", doc := "Remove first occurrence of item", required := ["item"]
      returns := "None" }
  | reverse => { name := "reverse", doc := "Reverse the list in place", returns := "None" }
  | sort =>
    { name := "sort", doc := "Sort the list in place (keywords: key, reverse)"
      returns := "None", takesKeywords := true }

end ListMethod

namespace DictMethod

def all : List DictMethod :=
  [clear, copy, get, items, keys, pop, setdefault, update, values]

def signature : DictMethod → Signature
  | clear => { name := "clear", doc := "Remove all items", returns := "None" }
  | copy => { name := "copy", doc := "Create a shallow copy", returns := "dict" }
  | get =>
    { name := "get", doc := "Get value by key with optional default", required := ["key"]
      optional := ["default"], returns := "any" }
  | items => { name := "items", doc := "Get list of (key, value) tuples", returns := "list" }
  | keys => { name := "keys", doc := "Get list of keys", returns := "list" }
  | pop =>
    { name := "pop", doc := "Remove key and return its value, or the default"
      required := ["key"], optional := ["default"], returns := "any" }
  | setdefault =>
    { name := "setdefault", doc := "Get value by key, inserting the default if missing"
      required := ["key"], optional := ["default"], returns := "any" }
  | update =>
    { name := "update", doc := "Update with items from another dict or keywords"
      optional := ["other"], returns := "None", takesKeywords := true }
  | values => { name := "values", doc := "Get list of values", returns := "list" }

end DictMethod

namespace TupleMethod

def all : List TupleMethod := [count, index]

def signature : TupleMethod → Signature
  | count =>
    { name := "count", doc := "Count occurrences of item", required := ["item"]
      returns := "int" }
  | index =>
    { name := "index", doc := "Find first index of item", required := ["item"]
      returns := "int" }

end TupleMethod

namespace Method

def signature : Method → Signature
  | str m => m.signature
  | list m => m.signature
  | dict m => m.signature
  | tuple m => m.signature

/-- The name of the type that has the method. -/
def owner : Method → String
  | str _ => "str"
  | list _ => "list"
  | dict _ => "dict"
  | tuple _ => "tuple"

/-- The name of a method with its type in front. -/
def fullName (m : Method) : String :=
  m.owner ++ "." ++ m.signature.name

/-- The methods of the type with the given name. -/
def ofOwner : String → List Method
  | "str" => StrMethod.all.map str
  | "list" => ListMethod.all.map list
  | "dict" => DictMethod.all.map dict
  | "tuple" => TupleMethod.all.map tuple
  | _ => []

/-- The method of a type with a given name. -/
def find? (owner name : String) : Option Method :=
  (ofOwner owner).find? (·.signature.name = name)

end Method

end Wordcode
