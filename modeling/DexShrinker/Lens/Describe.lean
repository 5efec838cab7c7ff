/-
  DexShrinker/Lens/Describe.lean
  ==============================
  **Lenses in words.**

  A lens is described layer by layer from the top, each layer with its renamings in
  the order of names, so equal lenses have equal descriptions.
-/
import DexShrinker.Lens.Basic

namespace DexShrinker

/-- The name of a kind of call. -/
def InvokeKind.text : InvokeKind → String
  | static => "Static"
  | virtual => "Virtual"
  | interface => "Interface"
  | direct => "Direct"
  | super => "Super"

/-- The name of a pass. -/
def LayerKind.text : LayerKind → String
  | horizontalClassMerger => "HorizontalClassMerger"
  | enumUnboxing => "EnumUnboxing"
  | treeFixer => "TreeFixer"
  | synthetic => "Synthetic"

/-- A name with named parts, as in `Point { x: 1 }`. -/
def partsText (name : String) (parts : List (String × String)) : String :=
  name ++ " \x7b " ++ ", ".intercalate (parts.map fun (k, v) => k ++ ": " ++ v) ++ " \x7d"

/-- An optional part: `None` or `Some(…)`. -/
def optionText : Option String → String
  | some s => "Some(" ++ s ++ ")"
  | none => "None"

def ArgumentChange.text : ArgumentChange → String
  | removed t c => partsText "Removed" [("ty", t.text), ("constant", optionText (c.map fun n => toString n.toInt))]
  | retyped f t => partsText "Rewritten" [("from", f.text), ("to", t.text)]

def ExtraParameter.text : ExtraParameter → String
  | unusedNull t => "UnusedNull(" ++ t.text ++ ")"
  | constantInt n => "ConstantInt(" ++ toString n.toInt ++ ")"

def ReturnChange.text (r : ReturnChange) : String :=
  partsText "RewrittenReturn" [("from", r.old.text), ("to", r.new.text)]

/-- The changes of a prototype in words. -/
def ProtoChanges.text (c : ProtoChanges) : String :=
  let arguments := c.arguments.toList.map fun (i, a) => toString i ++ ": " ++ a.text
  partsText "PrototypeChanges"
    [("arguments", "\x7b" ++ ", ".intercalate arguments ++ "\x7d"),
      ("extra_parameters", "[" ++ ", ".intercalate (c.extra.map ExtraParameter.text) ++ "]"),
      ("rewritten_return", optionText (c.returned.map ReturnChange.text))]

/-- One line for each entry, in the order of names. -/
def entryLines {α β : Type} [ToString α] [ToString β] (label : String) (entries : List (α × β)) : List String :=
  entries.map fun (k, v) => "  " ++ label ++ " " ++ toString k ++ " -> " ++ toString v

/-- The entries of a layer, one a line. -/
def Renaming.lines (r : Renaming) : List String :=
  entryLines "type" r.types.toList ++ entryLines "original type" r.formerTypes.toList
    ++ entryLines "field" r.fields.toList ++ entryLines "original field" r.formerFields.toList
    ++ entryLines "method" r.methods.toList ++ entryLines "original method" r.formerMethods.toList
    ++ r.invokeKinds.toList.map (fun (m, k) => "  invoke " ++ m.text ++ " " ++ k.text)
    ++ r.callChanges.toList.map (fun (m, c) => "  call site changes " ++ m.text ++ " " ++ c.text)
    ++ r.definitionChanges.toList.map (fun (m, c) => "  definition changes " ++ m.text ++ " " ++ c.text)

/-- A layer that is `n` below the top. -/
def Layer.lines (n : Nat) : Layer → List String
  | renames r => s!"#{n} {r.kind.text}" :: r.lines
  | clear => [s!"#{n} clear code rewriting"]

/-- A lens in words. -/
def Lens.describe (l : Lens) : String :=
  String.join (((l.layers.mapIdx Layer.lines).flatten ++ [s!"#{l.depth} identity"]).map (· ++ "\n"))

/-- The name of a layer. -/
def Layer.label : Layer → String
  | renames r => r.kind.text
  | clear => "Clear"

/-- The names of all layers in one line. -/
def Lens.label (l : Lens) : String :=
  let labels := l.layers.map Layer.label ++ ["Identity"]
  "GraphLens([" ++ ", ".intercalate (labels.map fun s => "\"" ++ s ++ "\"") ++ "])"

end DexShrinker
