/-
  DexShrinker/Access.lean
  =======================
  **Access flags of classes, fields and methods.**

  One word of bits serves all three kinds of definition. A bit that means nothing
  for a definition, or nothing at all, is carried along unchanged.
-/

namespace DexShrinker

/-- A set of access flags. -/
structure AccessFlags where
  bits : UInt32
deriving DecidableEq, Inhabited

namespace AccessFlags

def none : AccessFlags := ⟨0x0⟩
/-- The flag `PUBLIC`. -/
def publicFlag : AccessFlags := ⟨0x1⟩
/-- The flag `PRIVATE`. -/
def privateFlag : AccessFlags := ⟨0x2⟩
/-- The flag `PROTECTED`. -/
def protectedFlag : AccessFlags := ⟨0x4⟩
/-- The flag `STATIC`. -/
def staticFlag : AccessFlags := ⟨0x8⟩
/-- The flag `FINAL`. -/
def finalFlag : AccessFlags := ⟨0x10⟩
/-- The flag `VOLATILE` of fields. -/
def volatileFlag : AccessFlags := ⟨0x40⟩
/-- The flag `INTERFACE`. -/
def interfaceFlag : AccessFlags := ⟨0x200⟩
/-- The flag `ABSTRACT`. -/
def abstractFlag : AccessFlags := ⟨0x400⟩
/-- The flag `SYNTHETIC` of definitions without a counterpart in source text. -/
def syntheticFlag : AccessFlags := ⟨0x1000⟩
/-- The flag `ANNOTATION`. -/
def annotationFlag : AccessFlags := ⟨0x2000⟩
/-- The flag `ENUM`. -/
def enumFlag : AccessFlags := ⟨0x4000⟩
/-- The flag `CONSTRUCTOR` of instance and class initializers. -/
def constructorFlag : AccessFlags := ⟨0x10000⟩

/-- Every bit of `g` is set in `f`. -/
def contains (f g : AccessFlags) : Bool := f.bits &&& g.bits == g.bits

/-- The bits of both. -/
def union (f g : AccessFlags) : AccessFlags := ⟨f.bits ||| g.bits⟩

/-- The bits of `f` that are not in `g`. -/
def remove (f g : AccessFlags) : AccessFlags := ⟨f.bits &&& ~~~g.bits⟩

/-- The bits that both have. -/
def inter (f g : AccessFlags) : AccessFlags := ⟨f.bits &&& g.bits⟩

instance : OrOp AccessFlags := ⟨union⟩

def isPublic (f : AccessFlags) : Bool := f.contains publicFlag
def isPrivate (f : AccessFlags) : Bool := f.contains privateFlag
def isStatic (f : AccessFlags) : Bool := f.contains staticFlag
def isFinal (f : AccessFlags) : Bool := f.contains finalFlag
def isAbstract (f : AccessFlags) : Bool := f.contains abstractFlag
def isInterface (f : AccessFlags) : Bool := f.contains interfaceFlag
def isVolatile (f : AccessFlags) : Bool := f.contains volatileFlag
def isSynthetic (f : AccessFlags) : Bool := f.contains syntheticFlag

/-- Public visibility in place of private or protected. -/
def promoteToPublic (f : AccessFlags) : AccessFlags :=
  f.remove (privateFlag ||| protectedFlag) ||| publicFlag

end AccessFlags

end DexShrinker
