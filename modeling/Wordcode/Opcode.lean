namespace Wordcode

/-! # Opcodes

The instruction set. An instruction is a two-byte unit, an opcode byte followed by an argument
byte; opcodes below `Opcode.firstWithArgument` ignore the argument byte, and wider arguments are
spread over `extendedArg` units in front.

* `Opcode.number` and `Opcode.ofNumber?` relate opcodes to their bytes, `Opcode.name` and
  `Opcode.ofName?` to their names.
* `Opcode.argKind` says how an argument is read.
* `Opcode.stackEffect` is the net change of the operand stack.
-/

/-- An operation of the machine. -/
inductive Opcode
  | popTop | rotTwo | rotThree | dupTop | dupTopTwo | rotFour | nop
  | unaryPositive | unaryNegative | unaryNot | unaryInvert
  | binarySubscr | storeSubscr | deleteSubscr
  | getIter | returnValue
  | storeName | deleteName | unpackSequence | forIter | storeGlobal | deleteGlobal
  | loadConst | loadName | buildTuple | buildList | buildMap | compareOp
  | jumpForward | jumpIfFalseOrPop | jumpIfTrueOrPop | jumpAbsolute
  | popJumpIfFalse | popJumpIfTrue | loadGlobal | isOp | containsOp
  | loadFast | storeFast | deleteFast
  | callFunction | makeFunction | buildSlice | callFunctionKw | callFunctionEx
  | extendedArg | listAppend | formatValue | buildConstKeyMap | buildString
  | loadMethod | callMethod | listExtend | binaryOp | inplaceOp
  deriving DecidableEq, Repr, Inhabited

/-- How an instruction argument is read. -/
inductive ArgKind
  /-- The argument byte is ignored. -/
  | none
  /-- A plain number: an item count, an argument count or a truth value. -/
  | count
  /-- An index into the constant pool. -/
  | const
  /-- An index into the name pool. -/
  | name
  /-- An index into the variable names. -/
  | slot
  /-- An absolute byte offset. -/
  | jumpAbsolute
  /-- A byte distance from the end of the instruction. -/
  | jumpRelative
  /-- A binary operator number. -/
  | binaryOperator
  /-- A comparison operator number. -/
  | comparison
  /-- A bit set of flags. -/
  | flags
  deriving DecidableEq, Repr, Inhabited

/-- An operator with two operands. -/
inductive BinaryOperator
  | add | subtract | multiply | trueDivide | floorDivide | modulo | power
  | leftShift | rightShift | bitAnd | bitOr | bitXor
  deriving DecidableEq, Repr, Inhabited

/-- A comparison of two operands. -/
inductive Comparison
  | less | lessEqual | equal | notEqual | greater | greaterEqual
  deriving DecidableEq, Repr, Inhabited

/-- The number of operators that an argument can tell apart: the low 16 bits name the operator. -/
def operatorSpace : Nat := 65536

namespace ArgKind

/-- All kinds in the order of their numbers. -/
def all : List ArgKind :=
  [none, count, const, name, slot, jumpAbsolute, jumpRelative, binaryOperator, comparison,
    flags]

/-- The short name of a kind. -/
def label : ArgKind → String
  | none => "none"
  | count => "count"
  | const => "const"
  | name => "name"
  | slot => "local"
  | jumpAbsolute => "jabs"
  | jumpRelative => "jrel"
  | binaryOperator => "binop"
  | comparison => "cmpop"
  | flags => "flags"

/-- The label of the kind numbered `n`; a number outside the table is shown as such. -/
def labelOfNumber (n : Nat) : String :=
  match all[n]? with
  | some k => k.label
  | Option.none => s!"ArgKind({n})"

/-- A jump kind: the argument names a place in the instruction stream. -/
def isJump : ArgKind → Bool
  | jumpAbsolute | jumpRelative => true
  | _ => false

end ArgKind

namespace BinaryOperator

/-- All operators; the operator at position `i` has number `i + 1`. -/
def all : List BinaryOperator :=
  [add, subtract, multiply, trueDivide, floorDivide, modulo, power, leftShift, rightShift, bitAnd,
    bitOr, bitXor]

/-- The number of an operator in an instruction argument. -/
def number : BinaryOperator → Nat
  | add => 1
  | subtract => 2
  | multiply => 3
  | trueDivide => 4
  | floorDivide => 5
  | modulo => 6
  | power => 7
  | leftShift => 8
  | rightShift => 9
  | bitAnd => 10
  | bitOr => 11
  | bitXor => 12

/-- The way an operator is written. -/
def symbol : BinaryOperator → String
  | add => "+"
  | subtract => "-"
  | multiply => "*"
  | trueDivide => "/"
  | floorDivide => "//"
  | modulo => "%"
  | power => "**"
  | leftShift => "<<"
  | rightShift => ">>"
  | bitAnd => "&"
  | bitOr => "|"
  | bitXor => "^"

/-- The operator with the given number. -/
def ofNumber? (n : Nat) : Option BinaryOperator :=
  all.find? (·.number = n)

/-- The operator written as the given symbol. -/
def ofSymbol? (s : String) : Option BinaryOperator :=
  all.find? (·.symbol = s)

@[simp]
theorem ofNumber?_number (o : BinaryOperator) : ofNumber? o.number = some o := by
  cases o <;> decide

end BinaryOperator

namespace Comparison

/-- All comparisons; the comparison at position `i` has number `i + 1`. -/
def all : List Comparison :=
  [less, lessEqual, equal, notEqual, greater, greaterEqual]

/-- The number of a comparison in an instruction argument. -/
def number : Comparison → Nat
  | less => 1
  | lessEqual => 2
  | equal => 3
  | notEqual => 4
  | greater => 5
  | greaterEqual => 6

/-- The way a comparison is written. -/
def symbol : Comparison → String
  | less => "<"
  | lessEqual => "<="
  | equal => "=="
  | notEqual => "!="
  | greater => ">"
  | greaterEqual => ">="

/-- The comparison with the given number. -/
def ofNumber? (n : Nat) : Option Comparison :=
  all.find? (·.number = n)

/-- The comparison written as the given symbol. -/
def ofSymbol? (s : String) : Option Comparison :=
  all.find? (·.symbol = s)

@[simp]
theorem ofNumber?_number (c : Comparison) : ofNumber? c.number = some c := by
  cases c <;> decide

end Comparison

namespace Opcode

/-- The first opcode byte whose argument byte means something. -/
def firstWithArgument : Nat := 90

/-- The width of an instruction unit in bytes. -/
def unitSize : Nat := 2

/-- The opcode byte. -/
def number : Opcode → UInt8
  | popTop => 1
  | rotTwo => 2
  | rotThree => 3
  | dupTop => 4
  | dupTopTwo => 5
  | rotFour => 6
  | nop => 9
  | unaryPositive => 10
  | unaryNegative => 11
  | unaryNot => 12
  | unaryInvert => 15
  | binarySubscr => 25
  | storeSubscr => 60
  | deleteSubscr => 61
  | getIter => 68
  | returnValue => 83
  | storeName => 90
  | deleteName => 91
  | unpackSequence => 92
  | forIter => 93
  | storeGlobal => 97
  | deleteGlobal => 98
  | loadConst => 100
  | loadName => 101
  | buildTuple => 102
  | buildList => 103
  | buildMap => 105
  | compareOp => 107
  | jumpForward => 110
  | jumpIfFalseOrPop => 111
  | jumpIfTrueOrPop => 112
  | jumpAbsolute => 113
  | popJumpIfFalse => 114
  | popJumpIfTrue => 115
  | loadGlobal => 116
  | isOp => 117
  | containsOp => 118
  | loadFast => 124
  | storeFast => 125
  | deleteFast => 126
  | callFunction => 131
  | makeFunction => 132
  | buildSlice => 133
  | callFunctionKw => 141
  | callFunctionEx => 142
  | extendedArg => 144
  | listAppend => 145
  | formatValue => 155
  | buildConstKeyMap => 156
  | buildString => 157
  | loadMethod => 160
  | callMethod => 161
  | listExtend => 162
  | binaryOp => 170
  | inplaceOp => 171

/-- The name of an opcode. -/
def name : Opcode → String
  | popTop => "POP_TOP"
  | rotTwo => "ROT_TWO"
  | rotThree => "ROT_THREE"
  | dupTop => "DUP_TOP"
  | dupTopTwo => "DUP_TOP_TWO"
  | rotFour => "ROT_FOUR"
  | nop => "NOP"
  | unaryPositive => "UNARY_POSITIVE"
  | unaryNegative => "UNARY_NEGATIVE"
  | unaryNot => "UNARY_NOT"
  | unaryInvert => "UNARY_INVERT"
  | binarySubscr => "BINARY_SUBSCR"
  | storeSubscr => "STORE_SUBSCR"
  | deleteSubscr => "DELETE_SUBSCR"
  | getIter => "GET_ITER"
  | returnValue => "RETURN_VALUE"
  | storeName => "STORE_NAME"
  | deleteName => "DELETE_NAME"
  | unpackSequence => "UNPACK_SEQUENCE"
  | forIter => "FOR_ITER"
  | storeGlobal => "STORE_GLOBAL"
  | deleteGlobal => "DELETE_GLOBAL"
  | loadConst => "LOAD_CONST"
  | loadName => "LOAD_NAME"
  | buildTuple => "BUILD_TUPLE"
  | buildList => "BUILD_LIST"
  | buildMap => "BUILD_MAP"
  | compareOp => "COMPARE_OP"
  | jumpForward => "JUMP_FORWARD"
  | jumpIfFalseOrPop => "JUMP_IF_FALSE_OR_POP"
  | jumpIfTrueOrPop => "JUMP_IF_TRUE_OR_POP"
  | jumpAbsolute => "JUMP_ABSOLUTE"
  | popJumpIfFalse => "POP_JUMP_IF_FALSE"
  | popJumpIfTrue => "POP_JUMP_IF_TRUE"
  | loadGlobal => "LOAD_GLOBAL"
  | isOp => "IS_OP"
  | containsOp => "CONTAINS_OP"
  | loadFast => "LOAD_FAST"
  | storeFast => "STORE_FAST"
  | deleteFast => "DELETE_FAST"
  | callFunction => "CALL_FUNCTION"
  | makeFunction => "MAKE_FUNCTION"
  | buildSlice => "BUILD_SLICE"
  | callFunctionKw => "CALL_FUNCTION_KW"
  | callFunctionEx => "CALL_FUNCTION_EX"
  | extendedArg => "EXTENDED_ARG"
  | listAppend => "LIST_APPEND"
  | formatValue => "FORMAT_VALUE"
  | buildConstKeyMap => "BUILD_CONST_KEY_MAP"
  | buildString => "BUILD_STRING"
  | loadMethod => "LOAD_METHOD"
  | callMethod => "CALL_METHOD"
  | listExtend => "LIST_EXTEND"
  | binaryOp => "BINARY_OP"
  | inplaceOp => "INPLACE_OP"

/-- All opcodes in ascending order of their bytes. -/
def all : List Opcode :=
  [popTop, rotTwo, rotThree, dupTop, dupTopTwo, rotFour, nop, unaryPositive, unaryNegative,
    unaryNot, unaryInvert, binarySubscr, storeSubscr, deleteSubscr, getIter, returnValue,
    storeName, deleteName, unpackSequence, forIter, storeGlobal, deleteGlobal, loadConst, loadName,
    buildTuple, buildList, buildMap, compareOp, jumpForward, jumpIfFalseOrPop, jumpIfTrueOrPop,
    jumpAbsolute, popJumpIfFalse, popJumpIfTrue, loadGlobal, isOp, containsOp, loadFast, storeFast,
    deleteFast, callFunction, makeFunction, buildSlice, callFunctionKw, callFunctionEx,
    extendedArg, listAppend, formatValue, buildConstKeyMap, buildString, loadMethod, callMethod,
    listExtend, binaryOp, inplaceOp]

/-- The opcode with the given byte. -/
def ofNumber? (n : UInt8) : Option Opcode :=
  all.find? (·.number = n)

/-- The opcode with the given name. -/
def ofName? (s : String) : Option Opcode :=
  all.find? (·.name = s)

/-- How the argument of an opcode is read. -/
def argKind : Opcode → ArgKind
  | binaryOp | inplaceOp => .binaryOperator
  | compareOp => .comparison
  | buildConstKeyMap | buildList | buildMap | buildSlice | buildString | buildTuple
  | callFunction | callFunctionKw | callMethod | containsOp | extendedArg | isOp
  | listAppend | listExtend | unpackSequence => .count
  | callFunctionEx | formatValue | makeFunction => .flags
  | deleteFast | loadFast | storeFast => .slot
  | deleteGlobal | deleteName | loadGlobal | loadMethod | loadName | storeGlobal | storeName =>
    .name
  | loadConst => .const
  | forIter | jumpForward => .jumpRelative
  | jumpAbsolute | jumpIfFalseOrPop | jumpIfTrueOrPop | popJumpIfFalse | popJumpIfTrue =>
    .jumpAbsolute
  | binarySubscr | deleteSubscr | dupTop | dupTopTwo | getIter | nop | popTop | returnValue
  | rotFour | rotThree | rotTwo | storeSubscr | unaryInvert | unaryNegative | unaryNot
  | unaryPositive => .none

/-- Whether the argument byte means something. -/
def hasArg (o : Opcode) : Bool :=
  decide (firstWithArgument ≤ o.number.toNat)

/-- Whether the opcode may transfer control to another place. -/
def isJump (o : Opcode) : Bool :=
  o.argKind.isJump

/-- The way an opcode byte is shown: its name, or the number in angle brackets when no opcode has
that byte. -/
def showNumber (n : UInt8) : String :=
  match ofNumber? n with
  | some o => o.name
  | none => s!"<{n.toNat}>"

@[simp]
theorem ofNumber?_number (o : Opcode) : ofNumber? o.number = some o := by
  cases o <;> decide

/-- The two readings of "takes an argument" agree: by the byte and by the kind. -/
theorem hasArg_iff_argKind_ne_none (o : Opcode) : o.hasArg = true ↔ o.argKind ≠ .none := by
  cases o <;> decide

/-! ## Flags -/

/-- Whether bit `i` of an argument is set. -/
def bit (arg : Int) (i : Nat) : Bool :=
  decide ((arg >>> i) % 2 = 1)

/-- `makeFunction`: a tuple of positional defaults is on the stack. -/
def makesDefaults (arg : Int) : Bool := bit arg 0

/-- `makeFunction`: a mapping of keyword-only defaults is on the stack. -/
def makesKeywordDefaults (arg : Int) : Bool := bit arg 1

/-- `makeFunction`: annotations are on the stack. -/
def makesAnnotations (arg : Int) : Bool := bit arg 2

/-- `makeFunction`: closure cells are on the stack. -/
def makesCells (arg : Int) : Bool := bit arg 3

/-- `callFunctionEx`: a mapping of keyword arguments is on the stack. -/
def callsWithKeywords (arg : Int) : Bool := bit arg 0

/-- `formatValue`: a format specification is on the stack. -/
def formatsWithSpec (arg : Int) : Bool := bit arg 2

/-- `formatValue`: the conversion applied before formatting. -/
def conversion (arg : Int) : Nat := (arg % 4).toNat

/-! ## Stack effects -/

/-- The net change in operand stack depth of executing an opcode with an argument. For a jump,
`jump` says whether control is transferred. -/
def stackEffect (o : Opcode) (arg : Int) (jump : Bool) : Int :=
  match o with
  | nop | rotTwo | rotThree | rotFour | extendedArg | unaryPositive | unaryNegative | unaryNot
  | unaryInvert | getIter | jumpForward | jumpAbsolute | deleteName | deleteGlobal | deleteFast
  | loadMethod => 0
  | popTop | returnValue | storeName | storeGlobal | storeFast | binarySubscr | binaryOp
  | inplaceOp | compareOp | isOp | containsOp | listAppend | listExtend | popJumpIfFalse
  | popJumpIfTrue => -1
  | dupTop | loadConst | loadName | loadGlobal | loadFast => 1
  | dupTopTwo => 2
  | storeSubscr => -3
  | deleteSubscr => -2
  | jumpIfFalseOrPop | jumpIfTrueOrPop => if jump then 0 else -1
  | forIter => if jump then -1 else 1
  | unpackSequence => arg - 1
  | buildTuple | buildList | buildString | buildSlice => 1 - arg
  | buildMap => 1 - 2 * arg
  | buildConstKeyMap | callFunction | callMethod => -arg
  | formatValue => if formatsWithSpec arg then -1 else 0
  | callFunctionKw => -arg - 1
  | callFunctionEx => if callsWithKeywords arg then -2 else -1
  | makeFunction =>
    (if makesDefaults arg then -1 else 0) + (if makesKeywordDefaults arg then -1 else 0)

/-- The net change of the opcode with the given byte, if there is one. -/
def stackEffect? (n : UInt8) (arg : Int) (jump : Bool) : Option Int :=
  (ofNumber? n).map fun o => o.stackEffect arg jump

end Opcode

end Wordcode
