/-! Whole numbers kept to a fixed count of significant binary digits. -/
namespace Introspect.Significant

/-- The nearest whole number of at most `digits` significant binary digits. A tie goes to the even
neighbour. -/
def nearest (digits : Nat) (n : Int) : Int :=
  let unit := 1 <<< (n.natAbs.log2 + 1 - digits)
  let below := n.natAbs / unit
  let rest := n.natAbs % unit
  let up := unit < 2 * rest || (unit = 2 * rest && below % 2 = 1)
  n.sign * ((if up then below + 1 else below) * unit : Nat)

end Introspect.Significant
