import Tudlo.Binary64.Rounding

/-!
# Arithmetic on 64 bits

The five operations on decimals. On finite values each is the exact operation
on units followed by one rounding. The other cases follow the rules of the
format: infinities absorb what is finite, and an operation without a
meaningful answer, such as the difference of two infinities, gives the value
that is not a number.

* `add`, `sub`: a sum that vanishes is the negative zero only when both terms
  are negative;
* `mul`, `div`: the sign is negative when exactly one operand is;
* `rem`: what is left of the dividend after taking away the divisor a whole
  number of times, with the sign of the dividend. It is always exact.
-/

namespace Tudlo.Binary64

/-- The sum of two values. -/
def add : Binary64 → Binary64 → Binary64
  | .nan, _ => .nan
  | _, .nan => .nan
  | .infinite s, .infinite t => if s = t then .infinite s else .nan
  | .infinite s, .finite _ _ => .infinite s
  | .finite _ _, .infinite t => .infinite t
  | .finite s a, .finite t b =>
    let sum := signed s (units a) + signed t (units b)
    if sum = 0 then zero (s && t) else ofUnits (sum < 0) sum.natAbs 1

/-- The difference of two values. -/
def sub (x y : Binary64) : Binary64 :=
  x.add y.neg

/-- The product of two values. -/
def mul : Binary64 → Binary64 → Binary64
  | .nan, _ => .nan
  | _, .nan => .nan
  | .infinite s, .infinite t => .infinite (s != t)
  | .infinite s, .finite t b => if b.val = 0 then .nan else .infinite (s != t)
  | .finite s a, .infinite t => if a.val = 0 then .nan else .infinite (s != t)
  | .finite s a, .finite t b => ofUnits (s != t) (units a * units b) one

/-- The quotient of two values. -/
def div : Binary64 → Binary64 → Binary64
  | .nan, _ => .nan
  | _, .nan => .nan
  | .infinite _, .infinite _ => .nan
  | .infinite s, .finite t _ => .infinite (s != t)
  | .finite s _, .infinite t => zero (s != t)
  | .finite s a, .finite t b =>
    if b.val = 0 then
      if a.val = 0 then .nan else .infinite (s != t)
    else ofQuotient (s != t) (units a) (units b)

/-- The remainder of the division of two values, with the sign of the first
    one. -/
def rem : Binary64 → Binary64 → Binary64
  | .nan, _ => .nan
  | _, .nan => .nan
  | .infinite _, _ => .nan
  | .finite s a, .infinite _ => .finite s a
  | .finite s a, .finite _ b =>
    if b.val = 0 then .nan else ofUnits s (units a % units b) 1

end Tudlo.Binary64
