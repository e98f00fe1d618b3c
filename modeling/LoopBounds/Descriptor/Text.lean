import LoopBounds.Descriptor.Basic

/-!
# The text of a descriptor

Fetched values are written as a given function names them, so the same text serves with
positions and with the names of a function.
-/

namespace LoopBounds

def Operation.text : Operation → String
  | .add => "+"
  | .sub | .neg => "-"
  | .mul => "*"
  | .div => "/"
  | .lt => "<"
  | .le => "<="
  | .gt => ">"
  | .ge => ">="

def TripKind.text (kind : TripKind) : String :=
  (if kind.needsTaken then "TC-body" else "TC-loop")
    ++ (if kind.needsFinite then "-unsafe" else "")

namespace Descriptor

/-- The descriptor with fetched values written as `name` gives them. The taken test of a
trip count is not part of its text. -/
def textWith (name : InstrId → String) : Descriptor → String
  | constant v => toString v.toInt
  | fetch x => name x
  | unary op b => "(" ++ op.text ++ " " ++ b.textWith name ++ ")"
  | binary op a b =>
      "(" ++ a.textWith name ++ " " ++ op.text ++ " " ++ b.textWith name ++ ")"
  | linear a b => "(" ++ a.textWith name ++ " * i + " ++ b.textWith name ++ ")"
  | periodic a b => "periodic(" ++ a.textWith name ++ ", " ++ b.textWith name ++ ")"
  | wrapAround a b => "wrap(" ++ a.textWith name ++ ", " ++ b.textWith name ++ ")"
  | tripCount kind count | guardedCount kind count _ =>
      kind.text ++ ":" ++ count.textWith name

def text (d : Descriptor) : String := d.textWith InstrId.text

end Descriptor

end LoopBounds
