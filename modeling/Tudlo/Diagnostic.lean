import Tudlo.Position

/-!
# Diagnostics

What can go wrong with a program is one of three families of causes: the text
is not made of tokens, the tokens are not a program, or the program does
something it cannot do. A *diagnostic* is a cause of any family together with
the position it is blamed on.

Causes are data. Their wording is given in one place per family, by an
instance of `Explained`, and the diagnostic adds the position in front
(`Diagnostic.message`).
-/

namespace Tudlo

/-- A family of causes that can be put into words. -/
class Explained (Cause : Type) where
  /-- The cause as one sentence, with its full stop. -/
  sentence : Cause → String

/-- A cause, and the position it is blamed on. -/
structure Diagnostic (Cause : Type) where
  /-- What is wrong. -/
  cause : Cause
  /-- Where it is wrong. -/
  pos : Position
  deriving DecidableEq

/-- The line shown to the user. -/
def Diagnostic.message {Cause : Type} [Explained Cause] (d : Diagnostic Cause) : String :=
  "Error on " ++ d.pos.describe ++ ": " ++ Explained.sentence d.cause

end Tudlo
