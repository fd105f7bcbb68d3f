import Egdod.Lib.Gregorian
import Egdod.Ssh.AuthorizedKeys

/-! Expiry stamps against the calendar. `civil_from_days` counts years from
March, so that a leap day is the last of its year; here its divisions are
followed from a date of the calendar to the count of its days and back. -/
namespace Egdod.Ssh

open Text Gregorian

/-! ## Years that begin in March -/

/-- The year, from March on, that a date falls into. -/
def marchYear (d : Date) : Nat := if d.month ≤ 2 then d.year - 1 else d.year

/-- Its month counted from March, which is 0. -/
def marchMonth (d : Date) : Nat := if d.month ≤ 2 then d.month + 9 else d.month - 3

/-- Its day counted from the first of March, which is 0. -/
def marchDay (d : Date) : Nat := (153 * marchMonth d + 2) / 5 + d.day - 1

theorem dayNumber_march {d : Date} (h : 1 ≤ d.year) :
    d.dayNumber + marchYear d / 100 =
      60 + 365 * marchYear d + marchYear d / 4 + marchYear d / 400 + marchDay d := by
  obtain ⟨y, m, day, ⟨hlo, hhi⟩, hday⟩ := d
  simp only [Date.dayNumber, marchYear, marchDay, marchMonth]
  by_cases hm : m ≤ 2
  · -- January and February end the year that began the March before
    obtain ⟨y, rfl⟩ := Nat.exists_eq_add_of_le' h
    have hyear := daysBeforeYear_succ y
    have hmonth : daysBeforeMonth (y + 1) m = 31 * (m - 1) := by
      interval_cases m <;> rfl
    simp only [hm, if_true, hmonth]
    interval_cases m <;> omega
  · obtain ⟨k, rfl⟩ : ∃ k, m = k + 3 := ⟨m - 3, by omega⟩
    have hyear := daysBeforeYear_succ y
    rw [daysBeforeYear] at hyear
    have hmonth := daysBeforeMonth_add_three y (k := k) (by omega)
    simp only [hm, if_false, Nat.add_sub_cancel]
    omega

/-- Its months but the last fill the spaces the divisions by 153 and 5 leave
for them; the last one is February. -/
theorem day_le_march {d : Date} (h : 1 ≤ d.year) :
    (marchMonth d ≤ 10 ∧
      d.day + (153 * marchMonth d + 2) / 5 ≤ (153 * (marchMonth d + 1) + 2) / 5) ∨
    (marchMonth d = 11 ∧ d.day + 337 ≤ yearLength (marchYear d + 1)) := by
  obtain ⟨y, m, day, ⟨hlo, hhi⟩, hpos, hday⟩ := d
  simp only [marchMonth, marchYear]
  by_cases hm : m ≤ 2
  · simp only [hm, if_true]
    obtain rfl | rfl : m = 1 ∨ m = 2 := by omega
    · exact .inl ⟨by omega, by simpa [monthLength] using hday⟩
    · have hlength := monthLength_two y
      rw [Nat.sub_add_cancel h]
      exact .inr ⟨rfl, by simp only; omega⟩
  · obtain ⟨k, rfl⟩ : ∃ k, m = k + 3 := ⟨m - 3, by omega⟩
    have hlength := monthLength_add_three y (k := k) (by omega)
    simp only [hm, if_false, Nat.add_sub_cancel]
    exact .inl ⟨by omega, by omega⟩

/-- The year has 366 days exactly if it ends with a leap day. -/
theorem marchDay_le {d : Date} (h : 1 ≤ d.year) :
    marchDay d ≤ 365 ∧ (marchDay d = 365 → isLeap (marchYear d + 1) = true) := by
  have hday := d.day_mem.1
  unfold marchDay
  rcases day_le_march h with ⟨hm, hle⟩ | ⟨hm, hle⟩
  · exact ⟨by omega, fun heq => by omega⟩
  · unfold yearLength at hle
    split at hle
    · rename_i hleap
      exact ⟨by omega, fun _ => hleap⟩
    · exact ⟨by omega, fun heq => by omega⟩

theorem marchMonth_eq {d : Date} (h : 1 ≤ d.year) :
    (5 * marchDay d + 2) / 153 = marchMonth d := by
  have hday := d.day_mem.1
  have hle := (marchDay_le h).1
  unfold marchDay at hle ⊢
  rcases day_le_march h with ⟨hm, hle⟩ | ⟨hm, -⟩
  · omega
  · rw [hm] at hle ⊢
    omega

/-- The corrections of the days for leap years cancel in every one of the 400
years of an era. -/
theorem yearOfEra {c q r doy doe : Nat} (hc : c ≤ 3) (hq : q ≤ 24) (hr : r ≤ 3) (hdoy : doy ≤ 365)
    (hleap : doy = 365 → r = 3 ∧ (q < 24 ∨ c = 3))
    (hdoe : doe = 36524 * c + 1461 * q + 365 * r + doy) :
    (doe - doe / 1460 + doe / 36524 - doe / 146096) / 365 = 100 * c + 4 * q + r := by
  by_cases hlast : doe = 146096
  · subst hlast
    omega
  · have hcentury : doe / 36524 = c := by omega
    have hera : doe / 146096 = 0 := by omega
    have hfour : doe / 1460 = 25 * c + q + (24 * c + q + 365 * r + doy) / 1460 := by omega
    rw [hcentury, hera, hfour]
    omega

/-! ## The divisions of `civil_from_days` -/

/-- The values `civil_from_days` goes through on the way from a day to its date. -/
structure Civil (z : Int) (d : Date) (era doe yoe doy mp : Int) : Prop where
  era_eq : (z + 719468) / 146097 = era
  doe_eq : (z + 719468) % 146097 = doe
  yoe_eq : (doe - doe / 1460 + doe / 36524 - doe / 146096) / 365 = yoe
  doy_eq : doe - (365 * yoe + yoe / 4 - yoe / 100) = doy
  mp_eq : (5 * doy + 2) / 153 = mp
  day_eq : doy - (153 * mp + 2) / 5 + 1 = d.day
  month_eq : (if mp < 10 then mp + 3 else mp - 9) = d.month
  year_eq : yoe + era * 400 + (if d.month ≤ 2 then 1 else 0) = d.year
  doe_mem : 0 ≤ doe ∧ doe < 146097
  yoe_mem : 0 ≤ yoe ∧ yoe < 400
  doy_mem : 0 ≤ doy ∧ doy ≤ 365
  mp_mem : 0 ≤ mp ∧ mp ≤ 11

/-- The year splits into eras, centuries, spans of four years and years. -/
theorem exists_cycles (y : Nat) :
    ∃ e c q r, y = 400 * e + 100 * c + 4 * q + r ∧ c ≤ 3 ∧ q ≤ 24 ∧ r ≤ 3 :=
  ⟨y / 400, y % 400 / 100, y % 100 / 4, y % 4, by omega, by omega, by omega, by omega⟩

theorem isLeap_cycles {e c q r : Nat} (hc : c ≤ 3) (hq : q ≤ 24) (hr : r ≤ 3)
    (h : isLeap (400 * e + 100 * c + 4 * q + r + 1) = true) : r = 3 ∧ (q < 24 ∨ c = 3) := by
  obtain ⟨h4, hcentury⟩ := isLeap_iff.mp h
  have hr3 : r = 3 := by omega
  subst hr3
  refine ⟨rfl, ?_⟩
  by_cases hq24 : q < 24
  · exact .inl hq24
  · obtain rfl : q = 24 := by omega
    rcases hcentury with h100 | h400
    · omega
    · exact .inr (by omega)

theorem div_cycles {e c q r : Nat} (hc : c ≤ 3) (hq : q ≤ 24) (hr : r ≤ 3) :
    (400 * e + 100 * c + 4 * q + r) / 100 = 4 * e + c ∧
    (400 * e + 100 * c + 4 * q + r) / 4 = 100 * e + 25 * c + q ∧
    (400 * e + 100 * c + 4 * q + r) / 400 = e := by
  refine ⟨?_, ?_, ?_⟩
  · omega
  · omega
  · omega

/-- The part of a date before its month and day: the divisions by eras and years. -/
theorem years_of_days {N y doy : Nat} (hN : N + y / 100 = 365 * y + y / 4 + y / 400 + doy)
    (hdoy : doy ≤ 365) (hleap : doy = 365 → isLeap (y + 1) = true) :
    ∃ doe yoe, N = 146097 * (y / 400) + doe ∧ doe < 146097 ∧ y = 400 * (y / 400) + yoe ∧ yoe < 400 ∧
      (doe - doe / 1460 + doe / 36524 - doe / 146096) / 365 = yoe ∧
      doe + yoe / 100 = 365 * yoe + yoe / 4 + doy := by
  obtain ⟨e, c, q, r, rfl, hc, hq, hr⟩ := exists_cycles y
  obtain ⟨h100, h4, h400⟩ := div_cycles (e := e) hc hq hr
  have hcycles := fun hlast => isLeap_cycles hc hq hr (hleap hlast)
  have hyoe := yearOfEra hc hq hr hdoy hcycles rfl
  obtain ⟨k100, k4, -⟩ := div_cycles (e := 0) hc hq hr
  rw [h400]
  rw [h100, h4, h400] at hN
  rw [Nat.mul_zero, Nat.zero_add, Nat.zero_add] at k100 k4
  clear hleap h100 h4 h400
  refine ⟨36524 * c + 1461 * q + 365 * r + doy, 100 * c + 4 * q + r, ?_, ?_, ?_, ?_, hyoe, ?_⟩
  · omega
  · clear hyoe hN
    omega
  · omega
  · omega
  · rw [k100, k4]
    omega

theorem marchMonth_cases {d : Date} (h : 1 ≤ d.year) :
    (marchMonth d < 10 ∧ d.month = marchMonth d + 3 ∧ d.year = marchYear d) ∨
    (10 ≤ marchMonth d ∧ marchMonth d ≤ 11 ∧ d.month + 9 = marchMonth d ∧
      d.year = marchYear d + 1) := by
  have hm := d.month_mem
  unfold marchMonth marchYear
  split
  · exact .inr (by omega)
  · exact .inl (by omega)

theorem exists_civil {d : Date} {z : Int} (h : 1 ≤ d.year) (hz : z + 719528 = d.dayNumber) :
    ∃ era doe yoe doy mp, Civil z d era doe yoe doy mp := by
  have hnumber := dayNumber_march h
  obtain ⟨hdoy, hleap⟩ := marchDay_le h
  have hday : marchDay d + 1 = (153 * marchMonth d + 2) / 5 + d.day := by
    have := d.day_mem.1
    unfold marchDay
    omega
  obtain ⟨N, hN⟩ : ∃ N, d.dayNumber = 60 + N := by
    have : marchYear d / 100 ≤ marchYear d / 4 := Nat.div_le_div_left (by decide) (by decide)
    exact ⟨d.dayNumber - 60, by omega⟩
  have hcount : N + marchYear d / 100 =
      365 * marchYear d + marchYear d / 4 + marchYear d / 400 + marchDay d := by omega
  obtain ⟨doe, yoe, hdoe, hdoe', hyear, hyoe', hyoe, hrest⟩ := years_of_days hcount hdoy hleap
  have hz' : z + 719468 = 146097 * (marchYear d / 400 : Nat) + doe := by omega
  have hmp := marchMonth_eq h
  have hmonth := marchMonth_cases h
  clear hnumber hleap hN hcount hdoe hz
  generalize marchYear d / 400 = era at *
  generalize marchDay d = doy at *
  generalize marchMonth d = mp at *
  refine ⟨era, doe, yoe, doy, mp, ?_⟩
  constructor
  case era_eq => clear hmonth hday hmp hrest hyoe; omega
  case doe_eq => clear hmonth hday hmp hrest hyoe; omega
  case yoe_eq => clear hmonth hday hmp hrest; omega
  case doy_eq => clear hmonth hday hmp hyoe; omega
  case mp_eq => omega
  case day_eq => clear hmonth hmp hyoe hrest; omega
  case month_eq => clear hday hmp hyoe hrest; split <;> omega
  case year_eq => clear hday hmp hyoe hrest; split <;> omega
  case doe_mem => omega
  case yoe_mem => omega
  case doy_mem => omega
  case mp_mem => clear hday hmp hyoe hrest; omega

theorem Civil.civilFromDays {z era doe yoe doy mp : Int} {d : Date}
    (h : Civil z d era doe yoe doy mp) : civilFromDays z = (↑d.year, d.month, d.day) := by
  simp only [Ssh.civilFromDays, h.era_eq, h.doe_eq, h.yoe_eq, h.doy_eq, h.mp_eq, h.day_eq,
    h.month_eq, Int.toNat_natCast, h.year_eq]

/-! ## In machine integers -/

/-- A value an `i64` can have. -/
def i64 (x : Int) : Option Int := if -2 ^ 63 ≤ x ∧ x < 2 ^ 63 then some x else none

/-- A value that `as u32` leaves as it is. -/
def u32 (x : Int) : Option Nat := if 0 ≤ x ∧ x < 2 ^ 32 then some x.toNat else none

/-- `(doe - doe / 1460 + doe / 36_524 - doe / 146_096) / 365`. -/
def yearOfEra64 (doe : Int) : Option Int := do
  let x ← i64 (doe - doe.tdiv 1460)
  let x ← i64 (x + doe.tdiv 36524)
  let x ← i64 (x - doe.tdiv 146096)
  some (x.tdiv 365)

/-- `doe - (365 * yoe + yoe / 4 - yoe / 100)`. -/
def dayOfYear64 (doe yoe : Int) : Option Int := do
  let x ← i64 (365 * yoe)
  let x ← i64 (x + yoe.tdiv 4)
  let x ← i64 (x - yoe.tdiv 100)
  i64 (doe - x)

/-- `(5 * doy + 2) / 153`. -/
def marchMonth64 (doy : Int) : Option Int := do
  let x ← i64 (5 * doy)
  let x ← i64 (x + 2)
  some (x.tdiv 153)

/-- `(doy - (153 * mp + 2) / 5 + 1) as u32`. -/
def day64 (doy mp : Int) : Option Nat := do
  let x ← i64 (153 * mp)
  let x ← i64 (x + 2)
  let x ← i64 (doy - x.tdiv 5)
  let x ← i64 (x + 1)
  u32 x

/-- `if mp < 10 { mp + 3 } else { mp - 9 } as u32`. -/
def month64 (mp : Int) : Option Nat :=
  (if mp < 10 then i64 (mp + 3) else i64 (mp - 9)).bind u32

/-- `yoe + era * 400 + i64::from(m <= 2)`. -/
def year64 (yoe era : Int) (m : Nat) : Option Int := do
  let x ← i64 (era * 400)
  let x ← i64 (yoe + x)
  i64 (x + if m ≤ 2 then 1 else 0)

/-- `civil_from_days` with every operation checked; `/` truncates. -/
def civilFromDays64 (z : Int) : Option (Int × Nat × Nat) := do
  let z ← i64 (z + 719468)
  let yoe ← yearOfEra64 (z % 146097)
  let doy ← dayOfYear64 (z % 146097) yoe
  let mp ← marchMonth64 doy
  let d ← day64 doy mp
  let m ← month64 mp
  let y ← year64 yoe (z / 146097) m
  some (y, m, d)

theorem i64_eq {x : Int} (h : -2 ^ 63 ≤ x ∧ x < 2 ^ 63) : i64 x = some x := if_pos h

theorem i64_bind {α : Type} {x : Int} (h : -2 ^ 63 ≤ x ∧ x < 2 ^ 63) (f : Int → Option α) :
    (i64 x >>= f) = f x := by
  rw [i64_eq h]
  rfl

theorem u32_eq {n : Nat} (h : n < 2 ^ 32) : u32 n = some n := by
  have hmem : 0 ≤ (n : Int) ∧ (n : Int) < 2 ^ 32 := by omega
  rw [u32, if_pos hmem, Int.toNat_natCast]

section
variable {z era doe yoe doy mp : Int} {d : Date}

theorem yearOfEra64_eq (h : 0 ≤ doe ∧ doe < 146097) :
    yearOfEra64 doe = some ((doe - doe / 1460 + doe / 36524 - doe / 146096) / 365) := by
  have hdiv : ∀ k : Int, doe.tdiv k = doe / k := fun k => Int.tdiv_eq_ediv_of_nonneg h.1
  rw [yearOfEra64, hdiv, hdiv, hdiv, i64_bind (by omega), i64_bind (by omega),
    i64_bind (by omega), Int.tdiv_eq_ediv_of_nonneg (by omega)]

theorem dayOfYear64_eq (hdoe : 0 ≤ doe ∧ doe < 146097) (hyoe : 0 ≤ yoe ∧ yoe < 400) :
    dayOfYear64 doe yoe = some (doe - (365 * yoe + yoe / 4 - yoe / 100)) := by
  have hdiv : ∀ k : Int, yoe.tdiv k = yoe / k := fun k => Int.tdiv_eq_ediv_of_nonneg hyoe.1
  rw [dayOfYear64, hdiv, hdiv, i64_bind (by omega), i64_bind (by omega), i64_bind (by omega),
    i64_eq (by omega)]

theorem marchMonth64_eq (h : 0 ≤ doy ∧ doy ≤ 365) :
    marchMonth64 doy = some ((5 * doy + 2) / 153) := by
  rw [marchMonth64, i64_bind (by omega), i64_bind (by omega),
    Int.tdiv_eq_ediv_of_nonneg (by omega)]

theorem Civil.day64 (h : Civil z d era doe yoe doy mp) : day64 doy mp = some d.day := by
  have hdoy := h.doy_mem
  have hmp := h.mp_mem
  have hday := h.day_eq
  rw [Ssh.day64, i64_bind (by omega), i64_bind (by omega),
    Int.tdiv_eq_ediv_of_nonneg (by omega), i64_bind (by omega), hday, i64_bind (by omega),
    u32_eq (by omega)]

theorem Civil.month64 (h : Civil z d era doe yoe doy mp) : month64 mp = some d.month := by
  have hmp := h.mp_mem
  have hmonth := d.month_mem
  have hchoice : (if mp < 10 then i64 (mp + 3) else i64 (mp - 9)) = some ↑d.month := by
    rw [← h.month_eq]
    split <;> exact i64_eq (by omega)
  rw [Ssh.month64, hchoice, Option.bind_some]
  exact u32_eq (by omega)

theorem Civil.year64 (h : Civil z d era doe yoe doy mp) (hz : 0 ≤ z ∧ z < 2 ^ 62) :
    year64 yoe era d.month = some ↑d.year := by
  have hyoe := h.yoe_mem
  have hera := h.era_eq
  have hyear := h.year_eq
  have hyear' : (d.year : Int) < 2 ^ 63 := by split at hyear <;> omega
  rw [Ssh.year64, i64_bind (by omega), i64_bind (by omega), hyear, i64_eq (by omega)]

/-- No operation overflows and no cast changes its value. -/
theorem Civil.civilFromDays64 (h : Civil z d era doe yoe doy mp) (hz : 0 ≤ z ∧ z < 2 ^ 62) :
    civilFromDays64 z = some (↑d.year, d.month, d.day) := by
  rw [Ssh.civilFromDays64, i64_bind (by omega), h.doe_eq, h.era_eq]
  simp only [yearOfEra64_eq h.doe_mem, h.yoe_eq, dayOfYear64_eq h.doe_mem h.yoe_mem, h.doy_eq,
    marchMonth64_eq h.doy_mem, h.mp_eq, h.day64, h.month64, h.year64 hz, Option.bind_eq_bind,
    Option.bind_some]

end

/-! ## Digits -/

/-- A list of decimal digits as a number. -/
def number (s : Str) : Option Nat :=
  s.foldl (fun n c => n.bind fun n => if c.isDigit then some (10 * n + (c.toNat - 48)) else none)
    (some 0)

theorem number_snoc (s : Str) {n k : Nat} (hs : number s = some n) (hk : k < 10) :
    number (s ++ [k.digitChar]) = some (10 * n + k) := by
  have hdigit : ∀ k < 10, (k.digitChar).isDigit = true ∧ (k.digitChar).toNat - 48 = k := by decide
  unfold number at hs ⊢
  rw [List.foldl_append, hs]
  simp [hdigit k hk]

theorem number_zeros (k : Nat) : number (List.replicate k '0') = some 0 := by
  induction k with
  | zero => rfl
  | succ k ih =>
    rw [List.replicate_succ']
    exact number_snoc (k := 0) _ ih (by decide)

theorem number_toDigits (zeros n : Nat) :
    number (List.replicate zeros '0' ++ Nat.toDigits 10 n) = some n := by
  induction n using Nat.strongRecOn with
  | ind n ih =>
    by_cases hn : n < 10
    · rw [Nat.toDigits_of_lt_base hn]
      rw [number_snoc _ (number_zeros zeros) hn, Nat.mul_zero, Nat.zero_add]
    · have hsmall := ih (n / 10) (by omega)
      rw [Nat.toDigits_of_base_le (by decide) (by omega), ← List.append_assoc,
        number_snoc _ hsmall (Nat.mod_lt _ (by decide)), Nat.div_add_mod]

theorem number_zeroPad (w n : Nat) : number (zeroPad w n) = some n := number_toDigits _ n

theorem zeroPad_injective {w a b : Nat} (h : zeroPad w a = zeroPad w b) : a = b :=
  Option.some.inj ((number_zeroPad w a).symm.trans (h ▸ number_zeroPad w b))

theorem length_zeroPad {w n : Nat} (hw : 0 < w) (hn : n < 10 ^ w) : (zeroPad w n).length = w := by
  have hle := (Nat.length_toDigits_le_iff (by decide) hw).mpr hn
  simp only [zeroPad, List.length_append, List.length_replicate]
  omega

/-- The last digit stands apart. -/
theorem zeroPad_succ {w : Nat} (hw : 0 < w) (n : Nat) :
    zeroPad (w + 1) n = zeroPad w (n / 10) ++ [(n % 10).digitChar] := by
  unfold zeroPad
  by_cases hn : n < 10
  · have hdigit : n / 10 = 0 ∧ n % 10 = n := by omega
    have hzero : Nat.toDigits 10 0 = ['0'] := rfl
    obtain ⟨w, rfl⟩ := Nat.exists_eq_add_of_le' hw
    rw [Nat.toDigits_of_lt_base hn, hdigit.1, hdigit.2, hzero]
    simp [List.replicate_succ']
  · rw [Nat.toDigits_of_base_le (by decide) (by omega)]
    simp

/-! ## Order -/

/-- Lists compare by their first parts, when these are of one length. -/
theorem append_lt_append_iff {α : Type} [LT α] {p q : List α} (s t : List α)
    (h : p.length = q.length) : p ++ s < q ++ t ↔ p < q ∨ p = q ∧ s < t := by
  induction p generalizing q with
  | nil =>
    obtain rfl := List.eq_nil_of_length_eq_zero h.symm
    simp
  | cons a p ih =>
    cases q with
    | nil => cases h
    | cons b q =>
      have hlen : p.length = q.length := by simpa using h
      simp only [List.cons_append, List.cons_lt_cons_iff, ih hlen, List.cons.injEq]
      tauto

theorem zeroPad_lt_iff {w a b : Nat} (hw : 0 < w) (ha : a < 10 ^ w) (hb : b < 10 ^ w) :
    zeroPad w a < zeroPad w b ↔ a < b := by
  have hdigit : ∀ j < 10, ∀ k < 10, ([j.digitChar] < [k.digitChar] ↔ j < k) := by decide
  induction w, hw using Nat.le_induction generalizing a b with
  | base =>
    rw [pow_one] at ha hb
    have hone : ∀ n < 10, zeroPad 1 n = [n.digitChar] := fun n hn => by
      simp [zeroPad, Nat.toDigits_of_lt_base hn]
    rw [hone a ha, hone b hb]
    exact hdigit a ha b hb
  | succ w hw ih =>
    rw [pow_succ] at ha hb
    have ha' : a / 10 < 10 ^ w := by omega
    have hb' : b / 10 < 10 ^ w := by omega
    have hlen : (zeroPad w (a / 10)).length = (zeroPad w (b / 10)).length := by
      rw [length_zeroPad hw ha', length_zeroPad hw hb']
    have hfirst : zeroPad w (a / 10) < zeroPad w (b / 10) ↔ a / 10 < b / 10 := ih ha' hb'
    have hlast := hdigit (a % 10) (Nat.mod_lt _ (by decide)) (b % 10) (Nat.mod_lt _ (by decide))
    rw [zeroPad_succ hw, zeroPad_succ hw, append_lt_append_iff _ _ hlen, hfirst, hlast]
    constructor
    · rintro (h | ⟨h, hmod⟩)
      · omega
      · have := zeroPad_injective h
        omega
    · intro h
      by_cases heq : a / 10 = b / 10
      · exact .inr ⟨by rw [heq], by omega⟩
      · exact .inl (by omega)

/-! ## Stamps -/

/-- The first day of Unix time. -/
def epoch : Date := ⟨1970, 1, 1, by decide, by decide⟩

theorem dayNumber_epoch : epoch.dayNumber = 719528 := by
  have hyear : daysBeforeYear 1970 + 1969 / 100 = 365 * 1970 + 1969 / 4 + 1969 / 400 + 1 :=
    daysBeforeYear_succ 1969
  have hmonth : daysBeforeMonth 1970 1 = 0 := rfl
  simp only [Date.dayNumber, epoch, hmonth]
  omega

/-- A `SystemTime` that is not before the epoch, as the `Duration` since it. -/
structure SinceEpoch where
  secs : Nat
  subsecNanos : Nat
  secs_lt : secs < 2 ^ 64
  subsecNanos_lt : subsecNanos < 10 ^ 9

def SinceEpoch.nanos (t : SinceEpoch) : Nat := t.secs * 10 ^ 9 + t.subsecNanos

/-- The number in the first `w` digits, and what follows them. -/
def readField (w : Nat) (s : Str) : Option (Nat × Str) :=
  if w ≤ s.length then (number (s.take w)).map fun n => (n, s.drop w) else none

/-- `YYYYMMDDHHMMZ` read as a time in seconds since the epoch. -/
def readStamp (s : Str) : Option Nat := do
  let (y, s) ← readField 4 s
  let (m, s) ← readField 2 s
  let (d, s) ← readField 2 s
  let (hh, s) ← readField 2 s
  let (mm, s) ← readField 2 s
  let date ← Date.of y m d
  if epoch.dayNumber ≤ date.dayNumber ∧ hh < 24 ∧ mm < 60 ∧ s = ['Z'] then
    some ((date.dayNumber - epoch.dayNumber) * 86400 + hh * 3600 + mm * 60)
  else none

theorem dayNumber_epoch_le {d : Date} : epoch.dayNumber ≤ d.dayNumber ↔ 1970 ≤ d.year := by
  rw [← Nat.not_lt, Date.dayNumber_lt_iff]
  have hm := d.month_mem
  have hd := d.day_mem
  simp only [Date.Before, epoch]
  omega

/-- Every day since the epoch is counted to its date. -/
theorem exists_civilFromDays (days : Nat) :
    ∃ d : Date, 1970 ≤ d.year ∧ d.dayNumber = epoch.dayNumber + days ∧
      civilFromDays days = (↑d.year, d.month, d.day) ∧
      (days < 2 ^ 62 → civilFromDays64 days = some (↑d.year, d.month, d.day)) := by
  obtain ⟨d, hd⟩ := exists_date (epoch.dayNumber + days)
  have hyear : 1970 ≤ d.year := dayNumber_epoch_le.mp (by omega)
  have hz : (days : Int) + 719528 = d.dayNumber := by
    rw [dayNumber_epoch] at hd
    omega
  obtain ⟨era, doe, yoe, doy, mp, hcivil⟩ := exists_civil (by omega) hz
  exact ⟨d, hyear, hd, hcivil.civilFromDays, fun hlt => hcivil.civilFromDays64 (by omega)⟩

theorem SinceEpoch.nanos_div (t : SinceEpoch) : t.nanos / (60 * 10 ^ 9) = t.secs / 60 := by
  have := t.subsecNanos_lt
  unfold nanos
  omega

/-- Minutes compare by day, hour and minute of the hour. -/
theorem minute_lt_iff (a b : Nat) :
    a / 86400 < b / 86400 ∨ a / 86400 = b / 86400 ∧
      (a % 86400 / 3600 < b % 86400 / 3600 ∨ a % 86400 / 3600 = b % 86400 / 3600 ∧
        a % 86400 % 3600 / 60 < b % 86400 % 3600 / 60) ↔
    a / 60 < b / 60 := by
  have split : ∀ s : Nat, ∃ day hour minute, s / 86400 = day ∧ s % 86400 / 3600 = hour ∧
      s % 86400 % 3600 / 60 = minute ∧ hour < 24 ∧ minute < 60 ∧
      s / 60 = 1440 * day + 60 * hour + minute := fun s =>
    ⟨_, _, _, rfl, rfl, rfl, by omega, by omega, by omega⟩
  obtain ⟨day, hour, minute, h₁, h₂, h₃, hhour, hminute, ha⟩ := split a
  obtain ⟨day', hour', minute', h₁', h₂', h₃', hhour', hminute', hb⟩ := split b
  rw [h₁, h₂, h₃, h₁', h₂', h₃', ha, hb]
  clear h₁ h₂ h₃ h₁' h₂' h₃' ha hb
  omega

/-- The parts a stamp is printed from. -/
theorem utcYyyymmddhhmm_eq {d : Date} {secs : Nat}
    (h : civilFromDays (secs / 86400 : Nat) = (↑d.year, d.month, d.day)) :
    utcYyyymmddhhmm secs = zeroPad 4 d.year ++ (zeroPad 2 d.month ++ (zeroPad 2 d.day ++
      (zeroPad 2 (secs % 86400 / 3600) ++ (zeroPad 2 (secs % 86400 % 3600 / 60) ++ ['Z'])))) := by
  simp only [utcYyyymmddhhmm, h, Int.toNat_natCast, List.append_assoc]

theorem lt_hundred (d : Date) : d.month < 10 ^ 2 ∧ d.day < 10 ^ 2 := by
  have hm := d.month_mem
  have hd := d.day_mem
  have hlength := monthLength_le d.year d.month
  omega

theorem time_lt_hundred (secs : Nat) :
    secs % 86400 / 3600 < 10 ^ 2 ∧ secs % 86400 % 3600 / 60 < 10 ^ 2 := by
  omega

theorem readField_zeroPad {w n : Nat} (hw : 0 < w) (hn : n < 10 ^ w) (rest : Str) :
    readField w (zeroPad w n ++ rest) = some (n, rest) := by
  have hlen := length_zeroPad hw hn
  unfold readField
  rw [if_pos (by rw [List.length_append]; omega), List.take_left' hlen, List.drop_left' hlen,
    number_zeroPad]
  rfl

/-- A stamp is read back part by part. -/
theorem readStamp_parts {d : Date} {hh mm : Nat} (hy : d.year < 10 ^ 4)
    (hepoch : epoch.dayNumber ≤ d.dayNumber) (hhh : hh < 24) (hmm : mm < 60) :
    readStamp (zeroPad 4 d.year ++ (zeroPad 2 d.month ++ (zeroPad 2 d.day ++
      (zeroPad 2 hh ++ (zeroPad 2 mm ++ ['Z']))))) =
      some ((d.dayNumber - epoch.dayNumber) * 86400 + hh * 3600 + mm * 60) := by
  obtain ⟨hm, hd⟩ := lt_hundred d
  have hh' : hh < 10 ^ 2 := by omega
  have mm' : mm < 10 ^ 2 := by omega
  simp only [readStamp, readField_zeroPad (by decide) hy, readField_zeroPad (by decide) hm,
    readField_zeroPad (by decide) hd, readField_zeroPad (by decide) hh',
    readField_zeroPad (by decide) mm', Date.of_eq, Option.bind_eq_bind, Option.bind_some]
  rw [if_pos ⟨hepoch, hhh, hmm, trivial⟩]

/-- Stamps of one width compare part by part. -/
theorem stamp_lt_iff {d d' : Date} {hh mm hh' mm' : Nat} (hy : d.year < 10 ^ 4)
    (hy' : d'.year < 10 ^ 4) (hhh : hh < 10 ^ 2) (hmm : mm < 10 ^ 2) (hhh' : hh' < 10 ^ 2)
    (hmm' : mm' < 10 ^ 2) :
    zeroPad 4 d.year ++ (zeroPad 2 d.month ++ (zeroPad 2 d.day ++
      (zeroPad 2 hh ++ (zeroPad 2 mm ++ ['Z'])))) <
    zeroPad 4 d'.year ++ (zeroPad 2 d'.month ++ (zeroPad 2 d'.day ++
      (zeroPad 2 hh' ++ (zeroPad 2 mm' ++ ['Z'])))) ↔
    d.Before d' ∨ d = d' ∧ (hh < hh' ∨ hh = hh' ∧ mm < mm') := by
  have part : ∀ {w a b : Nat} (s t : Str), 0 < w → a < 10 ^ w → b < 10 ^ w →
      (zeroPad w a ++ s < zeroPad w b ++ t ↔ a < b ∨ a = b ∧ s < t) := by
    intro w a b s t hw ha hb
    have hlen : (zeroPad w a).length = (zeroPad w b).length := by
      rw [length_zeroPad hw ha, length_zeroPad hw hb]
    rw [append_lt_append_iff _ _ hlen, zeroPad_lt_iff hw ha hb]
    constructor
    · exact Or.imp_right fun h => ⟨zeroPad_injective h.1, h.2⟩
    · exact Or.imp_right fun h => ⟨by rw [h.1], h.2⟩
  obtain ⟨hm, hd⟩ := lt_hundred d
  obtain ⟨hm', hd'⟩ := lt_hundred d'
  rw [part _ _ (by decide) hy hy', part _ _ (by decide) hm hm', part _ _ (by decide) hd hd',
    part _ _ (by decide) hhh hhh', part _ _ (by decide) hmm hmm']
  have hz : ¬ (['Z'] : Str) < ['Z'] := by decide
  simp only [hz, and_false, or_false]
  unfold Date.Before
  constructor
  · rintro (h | ⟨hy, h | ⟨hm, h | ⟨hd, h⟩⟩⟩)
    · exact .inl (.inl h)
    · exact .inl (.inr ⟨hy, .inl h⟩)
    · exact .inl (.inr ⟨hy, .inr ⟨hm, h⟩⟩)
    · exact .inr ⟨Date.ext' hy hm hd, h⟩
  · rintro ((h | ⟨hy, h | ⟨hm, h⟩⟩) | ⟨rfl, h⟩)
    · exact .inl h
    · exact .inr ⟨hy, .inl h⟩
    · exact .inr ⟨hy, .inr ⟨hm, .inl h⟩⟩
    · exact .inr ⟨rfl, .inr ⟨rfl, .inr ⟨rfl, h⟩⟩⟩

/-- Expiry stamps denote the right minute. A day since the epoch is counted to
its date of the calendar and every such date is reached, in 64 bits without
overflow for every time; up to the year 9999 a stamp reads back as its time
rounded down to the minute, and stamps are ordered as the minutes are. -/
theorem stamps_denote_minutes :
    (∀ days : Nat, ∃ d : Date, 1970 ≤ d.year ∧ d.dayNumber = epoch.dayNumber + days ∧
      civilFromDays days = (↑d.year, d.month, d.day)) ∧
    (∀ d : Date, 1970 ≤ d.year → ∃ days : Nat, d.dayNumber = epoch.dayNumber + days ∧
      civilFromDays days = (↑d.year, d.month, d.day)) ∧
    (∀ t : SinceEpoch, (i64 (t.secs / 86400 : Nat)).bind civilFromDays64 =
      some (civilFromDays (t.secs / 86400 : Nat))) ∧
    (∀ t : SinceEpoch, (civilFromDays (t.secs / 86400 : Nat)).1 ≤ 9999 →
      ∃ secs, readStamp (utcYyyymmddhhmm t.secs) = some secs ∧
        secs * 10 ^ 9 = t.nanos - t.nanos % (60 * 10 ^ 9)) ∧
    ∀ t t' : SinceEpoch, (civilFromDays (t.secs / 86400 : Nat)).1 ≤ 9999 →
      (civilFromDays (t'.secs / 86400 : Nat)).1 ≤ 9999 →
      (utcYyyymmddhhmm t.secs < utcYyyymmddhhmm t'.secs ↔
        t.nanos / (60 * 10 ^ 9) < t'.nanos / (60 * 10 ^ 9)) := by
  refine ⟨fun days => ?_, fun d hyear => ?_, fun t => ?_, fun t hyear => ?_,
    fun t t' hyear hyear' => ?_⟩
  · obtain ⟨d, hyear, hd, hcivil, -⟩ := exists_civilFromDays days
    exact ⟨d, hyear, hd, hcivil⟩
  · obtain ⟨days, hdays⟩ := Nat.exists_eq_add_of_le (dayNumber_epoch_le.mpr hyear)
    obtain ⟨d', -, hd', hcivil, -⟩ := exists_civilFromDays days
    obtain rfl := Date.dayNumber_injective (hdays.trans hd'.symm)
    exact ⟨days, hdays, hcivil⟩
  · have hsecs := t.secs_lt
    obtain ⟨d, -, -, hcivil, hchecked⟩ := exists_civilFromDays (t.secs / 86400)
    rw [i64_eq (by omega), Option.bind_some, hchecked (by omega), hcivil]
  · obtain ⟨d, -, hd, hcivil, -⟩ := exists_civilFromDays (t.secs / 86400)
    rw [hcivil] at hyear
    have hsub := t.subsecNanos_lt
    rw [utcYyyymmddhhmm_eq hcivil,
      readStamp_parts (by omega) (by omega) (by omega) (by omega)]
    refine ⟨_, rfl, ?_⟩
    rw [hd, Nat.add_sub_cancel_left]
    unfold SinceEpoch.nanos
    omega
  · obtain ⟨d, -, hd, hcivil, -⟩ := exists_civilFromDays (t.secs / 86400)
    obtain ⟨d', -, hd', hcivil', -⟩ := exists_civilFromDays (t'.secs / 86400)
    rw [hcivil] at hyear
    rw [hcivil'] at hyear'
    obtain ⟨hhh, hmm⟩ := time_lt_hundred t.secs
    obtain ⟨hhh', hmm'⟩ := time_lt_hundred t'.secs
    have hdate : d = d' ↔ t.secs / 86400 = t'.secs / 86400 := by
      rw [← Date.dayNumber_injective.eq_iff, hd, hd', Nat.add_left_cancel_iff]
    rw [utcYyyymmddhhmm_eq hcivil, utcYyyymmddhhmm_eq hcivil',
      stamp_lt_iff (by omega) (by omega) hhh hmm hhh' hmm', ← Date.dayNumber_lt_iff, hdate, hd, hd',
      Nat.add_lt_add_iff_left, t.nanos_div, t'.nanos_div]
    exact minute_lt_iff _ _

/-- A second before midnight on a leap day. -/
theorem stamps_denote_minutes_leapDay :
    utcYyyymmddhhmm 951868799 = "200002292359Z".toList ∧
      ∃ secs, readStamp (utcYyyymmddhhmm 951868799) = some secs ∧
        secs * 10 ^ 9 = 951868740 * 10 ^ 9 := by
  obtain ⟨secs, hread, hsecs⟩ := stamps_denote_minutes.2.2.2.1
    ⟨951868799, 5, by decide, by decide⟩ (by decide +kernel)
  exact ⟨by decide +kernel, secs, hread, hsecs.trans (by decide)⟩

end Egdod.Ssh
