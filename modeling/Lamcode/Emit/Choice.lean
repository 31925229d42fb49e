/-!
# Lamcode.Emit.Choice — which of several equal encodings to use

Some operations have several encodings of the same size and the same effect. Without a seed the first
one is always taken, so a program has one image; with a seed the choice follows a generator of
pseudo-random numbers, so the image varies with the seed and with nothing else. What is asked of either
supply of choices is said in `Supply`, and nothing else about them matters for what the code does.
-/

namespace Lamcode

/-- A generator of 64-bit numbers: a counter with a constant increment whose values are mixed by one
multiplication. -/
structure Generator where
  state : UInt64
  deriving DecidableEq

namespace Generator

/-- The next number: the product of the counter with a disturbed copy of itself, its high half laid
over its low half. -/
def next (g : Generator) : UInt64 × Generator :=
  let state := g.state + 0x2d358dccaa6c78a5
  let product := state.toNat * (state ^^^ 0x8bb84b93962eacc9).toNat
  (product.toUInt64 ^^^ (product >>> 64).toUInt64, ⟨state⟩)

/-- A number below `n`, each one equally likely: the high half of the product of a draw with `n`. A
draw whose low half lies below `2 ^ 64 mod n` would favour some results and is drawn again, at most
`fuel` times. -/
def belowWithin (n : Nat) : Nat → Generator → Nat × Generator
  | 0, g => (0, g)
  | fuel + 1, g =>
    let (draw, g) := g.next
    let product := draw.toNat * n
    if product % UInt64.size < (UInt64.size - n) % n then belowWithin n fuel g
    else (product / UInt64.size, g)

theorem belowWithin_lt {n : Nat} (h : 0 < n) (fuel : Nat) (g : Generator) : (belowWithin n fuel g).1 < n := by
  induction fuel generalizing g with
  | zero => exact h
  | succ fuel ih =>
    rw [belowWithin]
    dsimp only
    split
    · exact ih _
    · rw [Nat.div_lt_iff_lt_mul (by decide), Nat.mul_comm n]
      exact Nat.mul_lt_mul_of_pos_right (UInt64.toNat_lt_size _) h

/-- A number below `n` for a generator with the counter `state`, and its counter behind that. -/
def draw (fuel n state : Nat) : Nat × Nat :=
  let drawn := belowWithin n fuel ⟨.ofNat state⟩
  (drawn.1, drawn.2.state.toNat)

theorem draw_lt (fuel : Nat) {n : Nat} (h : 0 < n) (state : Nat) : (draw fuel n state).1 < n :=
  belowWithin_lt h fuel ⟨.ofNat state⟩

end Generator

/-- A supply of choices between encodings. It keeps a number from one choice to the next. -/
structure Supply where
  /-- One of `n` encodings. -/
  pick (n state : Nat) : Nat × Nat
  /-- A number for a test that should come out true. -/
  nonzero (state : Nat) : Int × Nat
  pick_lt {n : Nat} (h : 0 < n) (state : Nat) : (pick n state).1 < n
  nonzero_ne_zero (state : Nat) : (nonzero state).1 ≠ 0

namespace Supply

/-- Always the first encoding. -/
def first : Supply where
  pick _ state := (0, state)
  nonzero state := (1, state)
  pick_lt h _ := h
  nonzero_ne_zero _ := Int.one_ne_zero

/-- What the generator draws; its counter is what is kept. The counter takes every 64-bit value before it
repeats one, so the bound on the draws is never the reason to stop. -/
def random : Supply where
  pick := Generator.draw UInt64.size
  nonzero state :=
    let drawn := Generator.draw UInt64.size 999 state
    (1 + drawn.1, drawn.2)
  pick_lt := Generator.draw_lt UInt64.size
  nonzero_ne_zero state := by
    generalize Generator.draw UInt64.size 999 state = drawn
    show 1 + (drawn.1 : Int) ≠ 0
    omega

end Supply

/-- How to choose between encodings: a supply, and what it has kept. -/
structure Choice where
  supply : Supply
  state : Nat

namespace Choice

/-- Always the first encoding. -/
def first : Choice :=
  ⟨.first, 0⟩

/-- The choice that a seed stands for. -/
def ofSeed? : Option UInt64 → Choice
  | none => .first
  | some seed => ⟨.random, seed.toNat⟩

/-- One of `n` encodings. -/
def pick (n : Nat) (c : Choice) : Nat × Choice :=
  let (k, state) := c.supply.pick n c.state
  (k, { c with state })

/-- A number that is not zero. -/
def nonzero (c : Choice) : Int × Choice :=
  let (k, state) := c.supply.nonzero c.state
  (k, { c with state })

end Choice

end Lamcode
