import MiniSql.Numeric.Shortest

/-!
# Rounding what needs no rounding

A quotient that is the magnitude of a rank is rounded to this rank (`nearestRank_eq`), so that a
decimal written with enough digits is read back exactly. `readsBack_shortest` says that the shortest
decimal has enough digits: those that `candidate?` proposes are tested for it, and where no proposal
passes the test the exact decimal is taken.
-/

namespace MiniSql.Binary64

variable {s m rank : Nat}

/-! ## Ranks by their significands -/

/-- A rank lies `m` behind the ranks below its scale. Only at the least scale may `m` be small. -/
theorem scale_eq (hm : m < 2 * twoTo 52) (h : s = 0 ∨ twoTo 52 ≤ m) :
    scale (s * twoTo 52 + m) = s := by
  have hpos := twoTo_pos 52
  unfold scale
  rw [Nat.add_comm, Nat.add_mul_div_right _ _ hpos]
  rcases Nat.lt_or_ge m (twoTo 52) with hsmall | hlarge
  · -- subnormal ranks share the scale of the ranks above them
    rw [Nat.div_eq_of_lt hsmall]
    omega
  · have hone : m / twoTo 52 = 1 := Nat.div_eq_of_lt_le (by omega) (by omega)
    omega

theorem units_eq (hm : m < 2 * twoTo 52) (h : s = 0 ∨ twoTo 52 ≤ m) :
    units (s * twoTo 52 + m) = m * twoTo s := by
  unfold units
  rw [scale_eq hm h, Nat.add_sub_cancel_left]

/-- Every rank has a significand of 53 bits and a shift; only the lowest ranks are not
normalised. -/
theorem exists_significand (rank : Nat) :
    ∃ s m, rank = s * twoTo 52 + m ∧ m < 2 * twoTo 52 ∧ (s = 0 ∨ twoTo 52 ≤ m) := by
  have hmod : rank % twoTo 52 < twoTo 52 := Nat.mod_lt _ (twoTo_pos 52)
  have hdiv : rank / twoTo 52 * twoTo 52 + rank % twoTo 52 = rank := Nat.div_add_mod' ..
  cases hquotient : rank / twoTo 52 with
  | zero =>
    rw [hquotient] at hdiv
    exact ⟨0, rank % twoTo 52, hdiv.symm, by omega, .inl rfl⟩
  | succ s =>
    rw [hquotient, Nat.succ_mul] at hdiv
    exact ⟨s, twoTo 52 + rank % twoTo 52, by omega, by omega, .inr (by omega)⟩

/-- Ranks are in the order of the numbers they stand for. -/
theorem units_lt_units_succ (rank : Nat) : units rank < units (rank + 1) := by
  obtain ⟨s, m, rfl, hm, h⟩ := exists_significand rank
  have hpos := twoTo_pos s
  rw [units_eq hm h]
  rcases Nat.lt_or_ge (m + 1) (2 * twoTo 52) with hnext | hlast
  · rw [Nat.add_assoc, units_eq hnext (by omega), Nat.succ_mul]
    omega
  · -- the last rank of a scale, behind which the unit is doubled
    have hsucc : s * twoTo 52 + m + 1 = (s + 1) * twoTo 52 + twoTo 52 := by
      rw [Nat.succ_mul]
      omega
    have hunits : units (s * twoTo 52 + m + 1) = 2 * twoTo 52 * twoTo s := by
      rw [hsucc, units_eq (by omega) (.inr (Nat.le_refl _)), twoTo_succ s, Nat.mul_comm (twoTo s),
        ← Nat.mul_assoc, Nat.mul_comm (twoTo 52)]
    rw [hunits]
    exact Nat.mul_lt_mul_of_pos_right hm hpos

/-! ## Rounding -/

theorem log2_of_significand (hlow : twoTo 52 ≤ m) (hm : m < 2 * twoTo 52) :
    (m * twoTo s).log2 = 52 + s := by
  have hpos : 0 < m * twoTo s := Nat.mul_pos (Nat.lt_of_lt_of_le (twoTo_pos 52) hlow) (twoTo_pos s)
  have hlow : twoTo (52 + s) ≤ m * twoTo s := by
    rw [twoTo_add]
    exact Nat.mul_le_mul_right _ hlow
  have hhigh : m * twoTo s < twoTo (52 + s + 1) := by
    rw [Nat.add_right_comm, twoTo_add, twoTo_succ 52, Nat.mul_comm (twoTo 52)]
    exact Nat.mul_lt_mul_of_pos_right hm (twoTo_pos s)
  exact (Nat.log2_eq_iff (Nat.ne_of_gt hpos)).mpr ⟨hlow, hhigh⟩

/-- The rank below a representable amount is the rank of that amount. -/
theorem floorRank_units (rank : Nat) : floorRank (units rank) = rank := by
  obtain ⟨s, m, rfl, hm, h⟩ := exists_significand rank
  have hscale : (m * twoTo s).log2 - 52 = s := by
    rcases Nat.lt_or_ge m (twoTo 52) with hsmall | hlarge
    · obtain rfl : s = 0 := by omega
      rw [twoTo_zero, Nat.mul_one]
      have hlog : m.log2 ≤ 52 := by
        by_cases hzero : m = 0
        · subst hzero
          decide
        · exact Nat.le_of_lt ((Nat.log2_lt hzero).mpr hsmall)
      omega
    · rw [log2_of_significand hlarge hm]
      omega
  unfold floorRank
  rw [units_eq hm h]
  simp only [hscale]
  rw [Nat.mul_div_cancel _ (twoTo_pos s)]

theorem units_eq_zero_iff : units rank = 0 ↔ rank = 0 := by
  constructor
  · intro h
    rw [← floorRank_units rank, h]
    decide
  · rintro rfl
    exact units_zero

/-- An amount that is representable is not rounded. -/
theorem roundUnits_eq {amount den : Nat} (hden : 0 < den) (h : amount = units rank * den) :
    roundUnits amount den = rank := by
  have hbelow : floorRank (amount / den) = rank := by
    rw [h, Nat.mul_div_cancel _ hden, floorRank_units]
  have hlt : 2 * amount < (units rank + units (rank + 1)) * den := by
    rw [h, ← Nat.mul_assoc]
    apply Nat.mul_lt_mul_of_pos_right _ hden
    have := units_lt_units_succ rank
    omega
  unfold roundUnits
  simp only [hbelow]
  rw [if_pos (.inl hlt)]

/-- The nearest rank to a fraction equal to a representable number is the rank of that number. -/
theorem nearestRank_eq {num den : Nat} (hden : 0 < den)
    (h : num * twoTo 1074 = units rank * den) : nearestRank num den = rank :=
  roundUnits_eq hden h

/-! ## Decimals that read back -/

variable {x : Decimal}

theorem ofRank_congr {a b : Nat} (h : ofRank false a = ofRank false b) (negative : Bool) :
    ofRank negative a = ofRank negative b := by
  have hmin : min a infiniteRank = min b infiniteRank := (number.inj h).2
  unfold ofRank
  congr 1

/-- Digits that pass the check are read as the number of the rank they were checked for. -/
theorem ofDecimal_of_readsBack (h : readsBack rank x = true) (negative : Bool) :
    ofDecimal negative x.digits x.exponent = ofRank negative rank := by
  have hpositive : ofDecimal false x.digits x.exponent = ofRank false rank := eq_of_beq h
  unfold ofDecimal at hpositive ⊢
  split at hpositive
  · rw [if_pos ‹_›]
    exact ofRank_congr hpositive negative
  · rw [if_neg ‹_›]
    exact ofRank_congr hpositive negative

theorem readsBack_of_candidate? {count : Nat} (h : candidate? rank count = some x) :
    readsBack rank x = true := by
  unfold candidate? at h
  dsimp only at h
  split at h
  · next hlower =>
    obtain rfl := Option.some.inj h
    exact hlower.1
  · split at h
    · next hupper =>
      obtain rfl := Option.some.inj h
      exact hupper
    · nomatch h

/-- The exact digits always pass the check. -/
theorem readsBack_exactDecimal (rank : Nat) : readsBack rank (exactDecimal rank) = true := by
  have hnegative : (exactDecimal rank).exponent < 0 := Int.negSucc_lt_zero 1073
  have hplaces : (exactDecimal rank).exponent.natAbs = 1074 := rfl
  have hexact : (exactDecimal rank).digits * twoTo 1074 = units rank * tenTo 1074 := by
    unfold exactDecimal
    rw [Nat.mul_assoc, fiveTo_mul_twoTo]
  have hread : ofDecimal false (exactDecimal rank).digits (exactDecimal rank).exponent =
      ofRank false rank := by
    unfold ofDecimal ofRatio
    rw [if_pos hnegative, hplaces, nearestRank_eq (tenTo_pos 1074) hexact]
  exact beq_iff_eq.mpr hread

theorem readsBack_zero : readsBack 0 ⟨0, 0⟩ = true := by
  have hread : ofDecimal false 0 0 = ofRank false 0 := by
    unfold ofDecimal ofRatio
    rw [if_neg (Int.lt_irrefl 0), Nat.zero_mul,
      nearestRank_eq Nat.one_pos (by rw [units_zero, Nat.zero_mul, Nat.zero_mul])]
  exact beq_iff_eq.mpr hread

/-- So the shortest digits pass it as well: they are among the candidates, or the exact ones. -/
theorem readsBack_shortest (rank : Nat) : readsBack rank (shortest rank) = true := by
  unfold shortest
  split
  · next hzero =>
    subst hzero
    exact readsBack_zero
  · cases hfound : (List.range 17).findSome? fun i => candidate? rank (i + 1) with
    | none => exact readsBack_exactDecimal rank
    | some x =>
      obtain ⟨i, -, hi⟩ := List.exists_of_findSome?_eq_some hfound
      exact readsBack_of_candidate? hi

end MiniSql.Binary64
