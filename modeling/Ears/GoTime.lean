/-
# The package `time` (RFC 3339)

A time is the number of nanoseconds since 1970 in UTC.  `Format` and `Parse` are those of the
layout `RFC3339Nano`: the writer drops the zeros at the end of the fraction, and the dot when
nothing is left; the reader takes fractions of any length.

A text is a date and a time of day of fixed width (`dateTime`) and what stands behind them.
`dateTime_lt_iff` says how such texts sort and `parse_dateTime` how they are read.
-/
import Ears.Calendar
import Ears.Decimals
import Ears.GoLib

open Decimals

namespace GoTime

/-! ## The parts of a time -/

/-- The day that 1970 begins with. -/
def epochDay : ℤ := Calendar.toDay ⟨1970, 1, 1, by decide, by decide⟩

def day (t : ℤ) : ℤ := t / 1000000000 / 86400 + epochDay

def secondOfDay (t : ℤ) : ℕ := (t / 1000000000 % 86400).toNat

/-- `t.Nanosecond()`. -/
def nanosecond (t : ℤ) : ℕ := (t % 1000000000).toNat

/-- `t.Date()`. -/
def date (t : ℤ) : Calendar.Date := Calendar.ofDay (day t)

/-- `t.Year()`. -/
def year (t : ℤ) : ℤ := (date t).year

/-- `t.Hour()`. -/
def hour (t : ℤ) : ℕ := secondOfDay t / 3600

/-- `t.Minute()`. -/
def minute (t : ℤ) : ℕ := secondOfDay t % 3600 / 60

/-- `t.Second()`. -/
def second (t : ℤ) : ℕ := secondOfDay t % 60

/-- `time.Date` in UTC. -/
def ofParts (date : Calendar.Date) (hour min sec nsec : ℕ) : ℤ :=
  ((Calendar.toDay date - epochDay) * 86400 + hour * 3600 + min * 60 + sec) * 1000000000 + nsec

/-- A day has 86400 seconds. -/
theorem secondOfDay_lt (t : ℤ) : secondOfDay t < 86400 := by
  unfold secondOfDay
  omega

/-- A second has 10⁹ nanoseconds. -/
theorem nanosecond_lt (t : ℤ) : nanosecond t < 10 ^ 9 := by
  unfold nanosecond
  omega

/-- A time is put together again from its parts. -/
theorem ofParts_eq (t : ℤ) (nsec : ℕ) :
    ofParts (date t) (hour t) (minute t) (second t) nsec = t - nanosecond t + nsec := by
  rw [ofParts, date, Calendar.toDay_ofDay]
  unfold day hour minute second secondOfDay nanosecond
  omega

/-! ## `Format` -/

/-- `appendInt`: the sign, and the digits with zeros in front. -/
def appendInt (x : ℤ) (width : ℕ) : List Char :=
  (if x < 0 then ['-'] else []) ++ (Nat.toDigits 10 x.natAbs).leftpad width '0'

/-- `formatNano` for nine digits of which zeros at the end are trimmed. -/
def formatNano (nsec : ℕ) : List Char :=
  if trimmed 9 nsec = [] then [] else '.' :: trimmed 9 nsec

/-- Whole seconds have no fraction. -/
theorem formatNano_zero : formatNano 0 = [] := if_pos (trimmed_zero 9)

theorem trimmed_nine_ne_nil {n : ℕ} (h : n < 10 ^ 9) (hne : n ≠ 0) : trimmed 9 n ≠ [] := by
  rw [trimmed_eq_cons h hne]
  exact List.cons_ne_nil _ _

/-- Any other fraction is a dot and its digits up to the last that is not 0. -/
theorem formatNano_of_ne_zero {n : ℕ} (h : n < 10 ^ 9) (hne : n ≠ 0) :
    formatNano n = '.' :: trimmed 9 n := if_neg (trimmed_nine_ne_nil h hne)

/-- `t.UTC().Format(time.RFC3339Nano)`. -/
def format (t : ℤ) : String :=
  String.ofList (appendInt (date t).year 4 ++ ['-'] ++ appendInt (date t).month 2 ++ ['-'] ++
    appendInt (date t).day 2 ++ ['T'] ++ appendInt (hour t) 2 ++ [':'] ++ appendInt (minute t) 2 ++
    [':'] ++ appendInt (second t) 2 ++ formatNano (nanosecond t) ++ ['Z'])

/-! ## `Parse` -/

/-- `atoi` of the package: unlike that of `strconv` it reads no digits as 0. -/
def atoi (cs : List Char) : Option ℤ :=
  let ds := (GoLib.splitSign cs).2
  if ds.all Char.isDigit then
    some (if (GoLib.splitSign cs).1 then -Nat.ofDigitChars 10 ds 0 else Nat.ofDigitChars 10 ds 0)
  else none

/-- `getnum`: a number of two digits, or of one where `fixed` does not forbid it. -/
def getnum (fixed : Bool) : List Char → Option (ℕ × List Char)
  | c :: c' :: rest =>
      if c.isDigit then
        if c'.isDigit then some (Nat.ofDigitChars 10 [c, c'] 0, rest)
        else if fixed then none else some (Nat.ofDigitChars 10 [c] 0, c' :: rest)
      else none
  | [c] => if c.isDigit && !fixed then some (Nat.ofDigitChars 10 [c] 0, []) else none
  | [] => none

/-- `skip`, for one character of the layout. -/
def skip (c : Char) : List Char → Option (List Char)
  | c' :: rest => if c' = c then some rest else none
  | [] => none

/-- `stdLongYear`. -/
def longYear (value : List Char) : Option (ℤ × List Char) :=
  if value.length < 4 ∨ value.head?.any Char.isDigit = false then none
  else (atoi (value.take 4)).map fun year => (year, value.drop 4)

/-- `parseNanoseconds`: digits behind the ninth are cut off. -/
def parseNanoseconds (ds : List Char) : ℕ :=
  Nat.ofDigitChars 10 (ds.take 9) 0 * 10 ^ (9 - (ds.take 9).length)

/-- `stdFracSecond9`: the fraction may be left out. -/
def fracSecond (value : List Char) : ℕ × List Char :=
  match value with
  | c :: rest =>
      if (c = '.' ∨ c = ',') ∧ rest.head?.any Char.isDigit then
        (parseNanoseconds (rest.takeWhile Char.isDigit), rest.dropWhile Char.isDigit)
      else (0, value)
  | [] => (0, [])

/-- `stdISO8601ColonTZ`: the offset in seconds. -/
def zone : List Char → Option (ℤ × List Char)
  | 'Z' :: rest => some (0, rest)
  | sign :: h :: h' :: ':' :: m :: m' :: rest =>
      match atoi [h, h'], atoi [m, m'] with
      | some hr, some mm =>
          if sign = '+' then some ((hr * 60 + mm) * 60, rest)
          else if sign = '-' then some (-((hr * 60 + mm) * 60), rest)
          else none
      | _, _ => none
  | _ => none

/-- The chunks `2006-01-02` of the layout: the date is checked when all is read. -/
def parseDate (value : List Char) : Option ((ℤ × ℕ × ℕ) × List Char) := do
  let (year, value) ← longYear value
  let (month, value) ← getnum true (← skip '-' value)
  let (day, value) ← getnum true (← skip '-' value)
  some ((year, month, day), value)

/-- The chunks `15:04:05` of the layout. -/
def parseClock (value : List Char) : Option ((ℕ × ℕ × ℕ) × List Char) := do
  let (hour, value) ← getnum false value
  let (min, value) ← getnum true (← skip ':' value)
  let (sec, value) ← getnum true (← skip ':' value)
  if 24 ≤ hour ∨ 60 ≤ min ∨ 60 ≤ sec then none else some ((hour, min, sec), value)

/-- `time.Parse(time.RFC3339Nano, value)`. -/
def parse (value : String) : Option ℤ := do
  let ((year, month, day), value) ← parseDate value.toList
  let ((hour, min, sec), value) ← parseClock (← skip 'T' value)
  let (nsec, value) := fracSecond value
  let (offset, value) ← zone value
  if value ≠ [] then none
  else if h : (1 ≤ month ∧ month ≤ 12) ∧ 1 ≤ day ∧ day ≤ Calendar.daysIn month year then
    some (ofParts ⟨year, month, day, h.1, h.2⟩ hour min sec nsec - offset * 1000000000)
  else none

example : parse "1970-01-01T01:00:00.25+01:00" = some 250000000 := by decide

/-! ## Dates and times of day of fixed width -/

section DateTime

variable {t u : ℤ} {width n : ℕ} {as bs rest : List Char}

/-- The text up to the fraction, and what stands behind it. -/
def dateTime (t : ℤ) (rest : List Char) : List Char :=
  digits 4 (year t).toNat ++ '-' :: (digits 2 (date t).month ++ '-' :: (digits 2 (date t).day ++
    'T' :: (digits 2 (hour t) ++ ':' :: (digits 2 (minute t) ++ ':' ::
      (digits 2 (second t) ++ rest)))))

/-- What is added behind the fraction stands at the end. -/
theorem dateTime_append (t : ℤ) (as bs : List Char) :
    dateTime t (as ++ bs) = dateTime t as ++ bs := by
  simp only [dateTime, List.append_assoc, List.cons_append]

/-- Years of four digits. -/
def FourDigitYear (t : ℤ) : Prop := 0 ≤ year t ∧ year t ≤ 9999

instance (t : ℤ) : Decidable (FourDigitYear t) := inferInstanceAs (Decidable (_ ∧ _))

/-- A year of four digits is not negative. -/
theorem FourDigitYear.toNat_year (h : FourDigitYear t) : ((year t).toNat : ℤ) = year t :=
  Int.toNat_of_nonneg h.1

theorem FourDigitYear.toNat_lt (h : FourDigitYear t) : (year t).toNat < 10 ^ 4 := by
  have hle := h.2
  omega

/-- Months have two digits. -/
theorem month_lt (t : ℤ) : (date t).month < 10 ^ 2 := (date t).month_mem.2.trans_lt (by decide)

/-- Days have two digits. -/
theorem day_lt (t : ℤ) : (date t).day < 10 ^ 2 := by
  refine ((date t).day_mem.2.trans ?_).trans_lt (show 31 < 10 ^ 2 by decide)
  exact Calendar.daysIn_le _ _

/-- A day has 24 hours. -/
theorem hour_lt (t : ℤ) : hour t < 24 := Nat.div_lt_of_lt_mul (secondOfDay_lt t)

/-- An hour has 60 minutes. -/
theorem minute_lt (t : ℤ) : minute t < 60 := by
  unfold minute
  omega

theorem second_lt (t : ℤ) : second t < 60 := Nat.mod_lt _ (by decide)

/-- A number that fits the width is written with all its digits. -/
theorem appendInt_natCast (h : n < 10 ^ (width + 1)) :
    appendInt n (width + 1) = digits (width + 1) n := by
  rw [appendInt, if_neg (by omega), Int.natAbs_natCast, leftpad_toDigits h, List.nil_append]

/-- With a year of four digits the text is the date, the time of day, the fraction and `Z`. -/
theorem toList_format (h : FourDigitYear t) :
    (format t).toList = dateTime t (formatNano (nanosecond t) ++ ['Z']) := by
  have hyear : appendInt (date t).year 4 = digits 4 (year t).toNat := by
    rw [← appendInt_natCast h.toNat_lt, h.toNat_year, year]
  rw [format, String.toList_ofList, hyear, appendInt_natCast (month_lt t),
    appendInt_natCast (day_lt t), appendInt_natCast ((hour_lt t).trans (by decide)),
    appendInt_natCast ((minute_lt t).trans (by decide)),
    appendInt_natCast ((second_lt t).trans (by decide))]
  simp only [dateTime, List.append_assoc, List.cons_append, List.nil_append]

/-- Days are ordered as their year, month and day of the month. -/
theorem day_lt_iff (t u : ℤ) : day t < day u ↔ year t < year u ∨
    year t = year u ∧ ((date t).month < (date u).month ∨
      (date t).month = (date u).month ∧ (date t).day < (date u).day) :=
  Calendar.lt_iff (day t) (day u)

theorem day_eq_iff (t u : ℤ) : day t = day u ↔
    year t = year u ∧ (date t).month = (date u).month ∧ (date t).day = (date u).day := by
  have hlt := day_lt_iff t u
  have hgt := day_lt_iff u t
  omega

/-- Seconds of a day are ordered as their hour, minute and second. -/
theorem secondOfDay_lt_iff (t u : ℤ) : secondOfDay t < secondOfDay u ↔ hour t < hour u ∨
    hour t = hour u ∧ (minute t < minute u ∨ minute t = minute u ∧ second t < second u) := by
  unfold hour minute second
  omega

/-- The hour, the minute and the second tell the second of the day. -/
theorem secondOfDay_eq_iff (t u : ℤ) : secondOfDay t = secondOfDay u ↔
    hour t = hour u ∧ minute t = minute u ∧ second t = second u := by
  unfold hour minute second
  omega

/-- Texts sort as the seconds do, and then as what stands behind them. -/
theorem dateTime_lt_iff (ht : FourDigitYear t) (hu : FourDigitYear u) :
    dateTime t as < dateTime u bs ↔ t / 1000000000 < u / 1000000000 ∨
      t / 1000000000 = u / 1000000000 ∧ as < bs := by
  have h24 : 24 < 10 ^ 2 := by decide
  have h60 : 60 < 10 ^ 2 := by decide
  have hyear : (year t).toNat < (year u).toNat ↔ year t < year u := by
    rw [← Nat.cast_lt (α := ℤ), ht.toNat_year, hu.toNat_year]
  have hyear' : (year t).toNat = (year u).toNat ↔ year t = year u := by
    rw [← Nat.cast_inj (R := ℤ), ht.toNat_year, hu.toNat_year]
  have hparts : t / 1000000000 < u / 1000000000 ↔
      day t < day u ∨ day t = day u ∧ secondOfDay t < secondOfDay u := by
    unfold day secondOfDay
    omega
  have hparts' : t / 1000000000 = u / 1000000000 ↔
      day t = day u ∧ secondOfDay t = secondOfDay u := by
    unfold day secondOfDay
    omega
  simp only [dateTime, digits_append_lt_iff ht.toNat_lt hu.toNat_lt,
    digits_append_lt_iff (month_lt t) (month_lt u), digits_append_lt_iff (day_lt t) (day_lt u),
    digits_append_lt_iff ((hour_lt t).trans h24) ((hour_lt u).trans h24),
    digits_append_lt_iff ((minute_lt t).trans h60) ((minute_lt u).trans h60),
    digits_append_lt_iff ((second_lt t).trans h60) ((second_lt u).trans h60),
    List.cons_lt_cons_iff, lt_irrefl, true_and, false_or, hyear, hyear']
  rw [hparts, hparts', day_lt_iff, day_eq_iff, secondOfDay_lt_iff, secondOfDay_eq_iff]
  simp only [and_or_left, and_assoc, or_assoc]

/-! ## Reading what was written -/

/-- Two digits are read back. -/
theorem getnum_digits (fixed : Bool) (h : n < 10 ^ 2) (rest : List Char) :
    getnum fixed (digits 2 n ++ rest) = some (n, rest) := by
  have hdigit : ∀ m, (Nat.digitChar (m % 10)).isDigit = true := fun m => by
    rw [Nat.isDigit_digitChar, decide_eq_true (Nat.mod_lt m (by decide))]
  show getnum fixed (Nat.digitChar (n / 10 % 10) :: Nat.digitChar (n % 10) :: rest) = _
  rw [getnum, if_pos (hdigit _), if_pos (hdigit _)]
  exact congrArg (fun m => some (m, rest)) (ofDigitChars_digits h)

theorem skip_cons (c : Char) (rest : List Char) : skip c (c :: rest) = some rest := if_pos rfl

/-- Four digits are read back as a year. -/
theorem longYear_digits (h : n < 10 ^ 4) (rest : List Char) :
    longYear (digits 4 n ++ rest) = some ((n : ℤ), rest) := by
  obtain ⟨c, cs, hcs⟩ := List.exists_cons_of_length_eq_add_one (length_digits 4 n)
  have hdigit : ∀ x ∈ c :: cs, x.isDigit = true := by
    rw [← hcs]
    exact fun x hx => isDigit_of_mem_digits hx
  have hc := hdigit c List.mem_cons_self
  have hatoi : atoi (digits 4 n) = some (n : ℤ) := by
    have hval := ofDigitChars_digits h
    rw [hcs] at hval ⊢
    rw [atoi, GoLib.splitSign_of_isDigit hc, if_pos (List.all_eq_true.mpr hdigit), hval]
    rfl
  have haccept : ¬ ((digits 4 n ++ rest).length < 4 ∨
      (digits 4 n ++ rest).head?.any Char.isDigit = false) := by
    rw [List.length_append, length_digits, hcs, List.cons_append, List.head?_cons, Option.any_some,
      hc]
    simp
  rw [longYear, List.take_left' (length_digits 4 n), List.drop_left' (length_digits 4 n), hatoi,
    if_neg haccept]
  rfl

/-- A fraction of at most nine digits. -/
theorem fracSecond_cons {ds : List Char} {c : Char} (hds : ∀ x ∈ ds, x.isDigit = true)
    (hne : ds ≠ []) (hlen : ds.length ≤ 9) (hc : c.isDigit = false) :
    fracSecond ('.' :: (ds ++ c :: rest)) =
      (Nat.ofDigitChars 10 ds 0 * 10 ^ (9 - ds.length), c :: rest) := by
  obtain ⟨d, ds', rfl⟩ := List.exists_cons_of_ne_nil hne
  have hd := hds d List.mem_cons_self
  have htake : (d :: ds' ++ c :: rest).takeWhile Char.isDigit = d :: ds' := by
    rw [List.takeWhile_append_of_pos hds, List.takeWhile_cons_of_neg (by simp [hc]),
      List.append_nil]
  have hdrop : (d :: ds' ++ c :: rest).dropWhile Char.isDigit = c :: rest := by
    rw [List.dropWhile_append_of_pos hds, List.dropWhile_cons_of_neg (by simp [hc])]
  rw [fracSecond, if_pos ⟨Or.inl rfl, hd⟩, htake, hdrop, parseNanoseconds,
    List.take_of_length_le hlen]

/-- A date is read back. -/
theorem parseDate_digits (ht : FourDigitYear t) (rest : List Char) :
    parseDate (digits 4 (year t).toNat ++ '-' :: (digits 2 (date t).month ++
      '-' :: (digits 2 (date t).day ++ rest))) =
        some ((year t, (date t).month, (date t).day), rest) := by
  simp only [parseDate, Option.bind_eq_bind, Option.bind_some, longYear_digits ht.toNat_lt,
    skip_cons, getnum_digits _ (month_lt t), getnum_digits _ (day_lt t), ht.toNat_year]

/-- A time of day is read back. -/
theorem parseClock_digits (t : ℤ) (rest : List Char) :
    parseClock (digits 2 (hour t) ++ ':' :: (digits 2 (minute t) ++
      ':' :: (digits 2 (second t) ++ rest))) = some ((hour t, minute t, second t), rest) := by
  have hhour := hour_lt t
  have hminute := minute_lt t
  have hsecond := second_lt t
  simp only [parseClock, Option.bind_eq_bind, Option.bind_some, skip_cons,
    getnum_digits _ (hhour.trans (show 24 < 10 ^ 2 by decide)),
    getnum_digits _ (hminute.trans (show 60 < 10 ^ 2 by decide)),
    getnum_digits _ (hsecond.trans (show 60 < 10 ^ 2 by decide))]
  exact if_neg (by omega)

/-- A date and a time of day are read back, whatever fraction stands behind them. -/
theorem parse_dateTime (ht : FourDigitYear t) (hfrac : fracSecond rest = (n, ['Z'])) :
    parse (String.ofList (dateTime t rest)) = some (t - nanosecond t + n) := by
  have hday : 1 ≤ (date t).day ∧ (date t).day ≤ Calendar.daysIn (date t).month (year t) :=
    (date t).day_mem
  have hzone : zone ['Z'] = some (0, []) := rfl
  simp only [parse, String.toList_ofList, dateTime, parseDate_digits ht, Option.bind_eq_bind,
    Option.bind_some, skip_cons, parseClock_digits, hfrac, hzone]
  rw [if_neg (by simp), dif_pos ⟨(date t).month_mem, hday⟩, zero_mul, sub_zero, ← ofParts_eq]
  rfl

end DateTime

end GoTime
