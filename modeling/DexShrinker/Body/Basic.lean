/-
  DexShrinker/Body/Basic.lean
  ===========================
  **Method bodies in single-assignment form.**

  A body is a list of blocks over a list of values. Values and blocks are named by
  their position. Blocks stand in layout order: the first one is the entry, and a
  conditional branch that is not taken goes on with the next block of the list. A
  value records its type and how it comes about; an operation lists the values it
  reads, and the value it defines is kept beside it in the instruction.
-/
import DexShrinker.Reference.CallSite

namespace DexShrinker

/-- A value of a body, by position. -/
abbrev ValueId := Nat

/-- A block of a body, by position in layout order. -/
abbrev BlockId := Nat

/-- A source line; `0` stands for none. -/
abbrev Line := Nat

/-- How a value comes about. -/
inductive Origin where
  /-- The argument at this index; the receiver of an instance method is argument `0`. -/
  | argument (index : Nat)
  | instruction
  | phi
  /-- No definition has been seen. -/
  | unresolved
deriving DecidableEq

/-- A value: its type and its origin. -/
structure Value where
  type : Descriptor
  origin : Origin
deriving DecidableEq

/-! ### Operations -/

/-- How a call selects its target. -/
inductive InvokeKind where
  | static
  | virtual
  | interface
  /-- Calls of constructors and private methods, which are not dispatched. -/
  | direct
  | super
deriving DecidableEq

/-- The width of an arithmetic operation. -/
inductive NumericType where
  | int
  | long
deriving DecidableEq

/-- Arithmetic and bitwise operators. -/
inductive BinaryOp where
  | add
  | sub
  | mul
  | div
  | rem
  | and
  | or
  | xor
  | shl
  | shr
  | ushr
deriving DecidableEq

/-- What an instruction does. -/
inductive Op where
  | constNull
  /-- Constants of type `boolean`, `char`, `byte`, `short` and `int`. -/
  | constInt (value : Int32)
  | constLong (value : Int64)
  | constString (value : String)
  | constClass (type : Descriptor)
  | constHandle (handle : MethodHandle)
  | constMethodType (proto : Prototype)
  | newInstance (type : Descriptor)
  | newArray (type : Descriptor) (size : ValueId)
  /-- Stands for an instance of an enum that becomes an integer. -/
  | newUnboxedEnum (type : Descriptor) (ordinal : Int32)
  /-- Reads an element of type `type`. -/
  | arrayGet (type : Descriptor) (array index : ValueId)
  | arrayPut (array index value : ValueId)
  | arrayLength (array : ValueId)
  | staticGet (field : FieldRef)
  | staticPut (field : FieldRef) (value : ValueId)
  | instanceGet (field : FieldRef) (object : ValueId)
  | instancePut (field : FieldRef) (object value : ValueId)
  /-- The receiver of an instance call is its first argument. -/
  | invoke (kind : InvokeKind) (method : MethodRef) (args : List ValueId) (isInterface : Bool)
  | invokeCustom (callSite : CallSite) (args : List ValueId)
  | checkCast (type : Descriptor) (value : ValueId)
  | instanceOf (type : Descriptor) (value : ValueId)
  | binary (op : BinaryOp) (type : NumericType) (lhs rhs : ValueId)
  /-- Carries a source line and does nothing. -/
  | debugPosition
deriving DecidableEq

namespace Op

/-- The values an operation reads, in operand order. -/
def reads : Op → List ValueId
  | newArray _ size => [size]
  | arrayGet _ array index => [array, index]
  | arrayPut array index value => [array, index, value]
  | arrayLength array => [array]
  | staticPut _ value => [value]
  | instanceGet _ object => [object]
  | instancePut _ object value => [object, value]
  | invoke _ _ args _ => args
  | invokeCustom _ args => args
  | checkCast _ value => [value]
  | instanceOf _ value => [value]
  | binary _ _ lhs rhs => [lhs, rhs]
  | constNull | constInt _ | constLong _ | constString _ | constClass _ | constHandle _ | constMethodType _
  | newInstance _ | newUnboxedEnum _ _ | staticGet _ | debugPosition => []

/-- Send every value the operation reads through `f`. -/
def mapReads (f : ValueId → ValueId) : Op → Op
  | newArray t size => newArray t (f size)
  | arrayGet t array index => arrayGet t (f array) (f index)
  | arrayPut array index value => arrayPut (f array) (f index) (f value)
  | arrayLength array => arrayLength (f array)
  | staticPut field value => staticPut field (f value)
  | instanceGet field object => instanceGet field (f object)
  | instancePut field object value => instancePut field (f object) (f value)
  | invoke kind method args itf => invoke kind method (args.map f) itf
  | invokeCustom site args => invokeCustom site (args.map f)
  | checkCast t value => checkCast t (f value)
  | instanceOf t value => instanceOf t (f value)
  | binary op t lhs rhs => binary op t (f lhs) (f rhs)
  | op@(constNull) | op@(constInt _) | op@(constLong _) | op@(constString _) | op@(constClass _)
  | op@(constHandle _) | op@(constMethodType _) | op@(newInstance _) | op@(newUnboxedEnum _ _)
  | op@(staticGet _) | op@(debugPosition) => op

/-- Send every value the operation reads through `f`, in operand order, stopping at the
    first failure. -/
def traverseReads {ε : Type} (f : ValueId → Except ε ValueId) : Op → Except ε Op
  | newArray t size => return newArray t (← f size)
  | arrayGet t array index => return arrayGet t (← f array) (← f index)
  | arrayPut array index value => return arrayPut (← f array) (← f index) (← f value)
  | arrayLength array => return arrayLength (← f array)
  | staticPut field value => return staticPut field (← f value)
  | instanceGet field object => return instanceGet field (← f object)
  | instancePut field object value => return instancePut field (← f object) (← f value)
  | invoke kind method args itf => return invoke kind method (← args.mapM f) itf
  | invokeCustom site args => return invokeCustom site (← args.mapM f)
  | checkCast t value => return checkCast t (← f value)
  | instanceOf t value => return instanceOf t (← f value)
  | binary op t lhs rhs => return binary op t (← f lhs) (← f rhs)
  | op@(constNull) | op@(constInt _) | op@(constLong _) | op@(constString _) | op@(constClass _)
  | op@(constHandle _) | op@(constMethodType _) | op@(newInstance _) | op@(newUnboxedEnum _ _)
  | op@(staticGet _) | op@(debugPosition) => return op

/-- Operations without effect, which may go when nobody reads their result. -/
def isRemovable : Op → Bool
  | constNull | constInt _ | constLong _ | constString _ | constMethodType _ | newUnboxedEnum _ _ => true
  | _ => false

end Op

/-- An operation with the value it defines and its source line. -/
structure Instr where
  dest : Option ValueId
  op : Op
  line : Line
deriving DecidableEq

/-- A value chosen by the way control came: operand `i` belongs to predecessor `i`. -/
structure Phi where
  dest : ValueId
  operands : List ValueId
deriving DecidableEq

/-! ### Control flow -/

/-- Comparison operators of conditional branches. -/
inductive Comparison where
  | eq
  | ne
  | lt
  | ge
  | gt
  | le
deriving DecidableEq

/-- The name of the operator in messages. -/
def Comparison.text : Comparison → String
  | .eq => "Eq"
  | .ne => "Ne"
  | .lt => "Lt"
  | .ge => "Ge"
  | .gt => "Gt"
  | .le => "Le"

/-- The operands a conditional branch compares. References are only compared for
    equality. -/
inductive ComparedType where
  | int
  | object
deriving DecidableEq

/-- How control leaves a block. -/
inductive Terminator where
  | goto (target : BlockId)
  /-- Goes to `target` if the comparison holds, where a missing right-hand side is zero
      or null, and to the next block otherwise. -/
  | branch (kind : Comparison) (type : ComparedType) (lhs : ValueId) (rhs : Option ValueId) (target : BlockId)
  | ret (value : Option ValueId)
  | throw (value : ValueId)
deriving DecidableEq

namespace Terminator

/-- The values a terminator reads. -/
def reads : Terminator → List ValueId
  | goto _ => []
  | branch _ _ lhs rhs _ => lhs :: rhs.toList
  | ret value => value.toList
  | throw value => [value]

/-- Send every value the terminator reads through `f`. -/
def mapReads (f : ValueId → ValueId) : Terminator → Terminator
  | goto target => goto target
  | branch kind type lhs rhs target => branch kind type (f lhs) (rhs.map f) target
  | ret value => ret (value.map f)
  | throw value => throw (f value)

/-- The normal successors of a terminator that ends block `here`. -/
def successors (here : BlockId) : Terminator → List BlockId
  | goto target => [target]
  | branch _ _ _ _ target => if target = here + 1 then [target] else [target, here + 1]
  | ret _ => []
  | throw _ => []

/-- Send every explicit target through `f`. -/
def mapTargets (f : BlockId → BlockId) : Terminator → Terminator
  | goto target => goto (f target)
  | branch kind type lhs rhs target => branch kind type lhs rhs (f target)
  | ret value => ret value
  | throw value => throw value

/-- The terminator is a conditional branch. -/
def isBranch : Terminator → Bool
  | branch .. => true
  | _ => false

end Terminator

/-- Exceptions of type `guard` that leave a block go to `target`. -/
structure Handler where
  guard : Descriptor
  target : BlockId
deriving DecidableEq

/-- A straight line of instructions with one way in and one terminator. -/
structure Block where
  phis : List Phi := []
  body : List Instr := []
  terminator : Terminator
  terminatorLine : Line := 0
  handlers : List Handler := []
deriving DecidableEq

namespace Block

/-- The values a block reads: in phis, in instructions, in the terminator. -/
def reads (b : Block) : List ValueId :=
  b.phis.flatMap Phi.operands ++ b.body.flatMap (·.op.reads) ++ b.terminator.reads

/-- The values a block defines: phis first. -/
def defs (b : Block) : List ValueId :=
  b.phis.map Phi.dest ++ b.body.filterMap Instr.dest

/-- Send every value the block reads through `f`. -/
def mapReads (f : ValueId → ValueId) (b : Block) : Block :=
  { b with
    phis := b.phis.map fun p => { p with operands := p.operands.map f }
    body := b.body.map fun i => { i with op := i.op.mapReads f }
    terminator := b.terminator.mapReads f }

/-- Every block that control may reach next, normal successors first, possibly with
    repetitions. -/
def targets (here : BlockId) (b : Block) : List BlockId :=
  b.terminator.successors here ++ b.handlers.map Handler.target

/-- The successors of a block without repetitions. -/
def successors (here : BlockId) (b : Block) : List BlockId := (b.targets here).eraseDups

end Block

/-- A method body. -/
structure Body where
  /-- The method the body was built for. -/
  method : MethodRef
  isStatic : Bool
  arguments : List ValueId
  values : List Value
  blocks : List Block
deriving DecidableEq

namespace Body

/-- The body without blocks whose arguments have the given types. -/
def withArguments (method : MethodRef) (isStatic : Bool) (types : List Descriptor) : Body where
  method := method
  isStatic := isStatic
  arguments := List.range types.length
  values := types.mapIdx fun i t => ⟨t, .argument i⟩
  blocks := []

/-- The body without blocks whose arguments are those of the method. -/
def empty (method : MethodRef) (isStatic : Bool) : Body :=
  withArguments method isStatic (method.argumentTypes isStatic)

/-- Add a value; it gets the next free position. -/
def newValue (c : Body) (type : Descriptor) (origin : Origin) : ValueId × Body :=
  (c.values.length, { c with values := c.values ++ [⟨type, origin⟩] })

/-- Every value that is read, once per reading. -/
def reads (c : Body) : List ValueId := c.blocks.flatMap Block.reads

/-- Every straight-line instruction with its block. -/
def instructions (c : Body) : List (BlockId × Instr) :=
  (c.blocks.mapIdx fun i b => b.body.map fun insn => (i, insn)).flatten

/-- The instructions that read `value`, by block and index in the block. -/
def users (c : Body) (value : ValueId) : List (BlockId × Nat) :=
  (c.blocks.mapIdx fun i b =>
    (b.body.mapIdx fun j insn => if value ∈ insn.op.reads then [(i, j)] else []).flatten).flatten

/-- Read `new` wherever `old` is read. -/
def replaceReads (c : Body) (old new : ValueId) : Body :=
  { c with blocks := c.blocks.map (Block.mapReads fun v => if v = old then new else v) }

end Body

end DexShrinker
