import DurableQueue.Jobs.Calls
import DurableQueue.Reasoning.SuffixCode
import DurableQueue.Scheduler.Schedule
import DurableQueue.Scheduler.Stepping

/-!
# Idempotency keys of slots

A schedule's name stands in the key as it is, whatever colons or dates it holds.  The timestamp
after it has two lengths, and no timestamp with its colon is the end of another.
-/

open Reasoning

namespace DurableQueue

/-! ## Digits -/

theorem toNat_digit {n : Nat} (h : n < 10) : (Char.ofNat (48 + n)).toNat = 48 + n := by
  rw [Char.ofNat, dif_pos (Or.inl (by omega))]
  rfl

@[simp] theorem length_digits (width : Nat) (n : Int) : (digits width n).length = width := by
  induction width generalizing n with
  | zero => rfl
  | succ width ih => rw [digits, List.length_append, ih, List.length_singleton]

theorem digits_inj {width : Nat} {m n : Int} (hm : 0 ≤ m ∧ m < 10 ^ width)
    (hn : 0 ≤ n ∧ n < 10 ^ width) (h : digits width m = digits width n) : m = n := by
  induction width generalizing m n with
  | zero =>
      rw [pow_zero] at hm hn
      omega
  | succ width ih =>
      rw [digits, digits] at h
      rw [pow_succ] at hm hn
      obtain ⟨hinit, hlast⟩ := List.append_inj' h rfl
      have hfront : m / 10 = n / 10 := ih (by omega) (by omega) hinit
      have hdigit := congrArg Char.toNat (List.singleton_injective hlast)
      rw [toNat_digit (by omega), toNat_digit (by omega)] at hdigit
      omega

/-! ## Dates -/

theorem yearOfEra_bounds {d : Int} (h : 0 ≤ d ∧ d < 146097) :
    0 ≤ (d - d / 1460 + d / 36524 - d / 146096) / 365 ∧
      (d - d / 1460 + d / 36524 - d / 146096) / 365 ≤ 399 := by
  omega

theorem dayOfYear_bounds {d y : Int} (h : 0 ≤ d ∧ d < 146097)
    (hy : y = (d - d / 1460 + d / 36524 - d / 146096) / 365) :
    0 ≤ d - (365 * y + y / 4 - y / 100) ∧ d - (365 * y + y / 4 - y / 100) ≤ 365 := by
  rcases (by omega : d < 146096 ∨ d = 146096) with hlt | rfl
  · -- century, leap cycle of the century, and day of the cycle
    obtain ⟨c, hc⟩ : ∃ c, c = d / 36524 := ⟨_, rfl⟩
    obtain ⟨q, hq⟩ : ∃ q, q = d % 36524 / 1461 := ⟨_, rfl⟩
    obtain ⟨s, hs⟩ : ∃ s, s = d % 36524 % 1461 := ⟨_, rfl⟩
    obtain ⟨e, he⟩ : ∃ e, e = (24 * c + q + s) / 1460 := ⟨_, rfl⟩
    have hd : d = 36524 * c + 1461 * q + s := by omega
    have hcentury : 0 ≤ c ∧ c ≤ 3 := by omega
    have hcycle : 0 ≤ q ∧ q ≤ 24 := by omega
    have hday : 0 ≤ s ∧ s ≤ 1460 := by omega
    have hleap : d / 1460 = 25 * c + q + e := by omega
    have hyear : y = 100 * c + 4 * q + (s - e) / 365 := by omega
    have hleaps : y / 4 = 25 * c + q := by omega
    have hskipped : y / 100 = c := by omega
    omega
  · subst hy
    decide

/-- The day as `civil` takes it apart, and how it is put together again. -/
theorem civil_eq (day : Int) : ∃ era y n : Int, (0 ≤ y ∧ y ≤ 399) ∧ (0 ≤ n ∧ n ≤ 365) ∧
    day = era * 146097 + (n + (365 * y + y / 4 - y / 100)) - 719468 ∧
    civil day = (era * 400 + y + (if (5 * n + 2) / 153 < 10 then 0 else 1),
      if (5 * n + 2) / 153 < 10 then (5 * n + 2) / 153 + 3 else (5 * n + 2) / 153 - 9,
      n - (153 * ((5 * n + 2) / 153) + 2) / 5 + 1) := by
  have hd : 0 ≤ (day + 719468) % 146097 ∧ (day + 719468) % 146097 < 146097 :=
    ⟨Int.emod_nonneg _ (by decide), Int.emod_lt_of_pos _ (by decide)⟩
  have hday := Int.mul_ediv_add_emod (day + 719468) 146097
  refine ⟨(day + 719468) / 146097, _, _, yearOfEra_bounds hd, dayOfYear_bounds hd rfl, ?_, rfl⟩
  rw [Int.sub_add_cancel, Int.mul_comm _ 146097, hday, Int.add_sub_cancel]

/-- The calendar says which day it is. -/
theorem civil_inj {a b : Int} (h : civil a = civil b) : a = b := by
  obtain ⟨era, y, n, hy, hn, ha, hcivil⟩ := civil_eq a
  obtain ⟨era', y', n', hy', hn', hb, hcivil'⟩ := civil_eq b
  rw [hcivil, hcivil', Prod.mk.injEq, Prod.mk.injEq] at h
  obtain ⟨hyear, hmonth, hday⟩ := h
  clear hcivil hcivil'
  -- the month gives its number from March on, the day with it that of the year
  have hmonths : (5 * n + 2) / 153 = (5 * n' + 2) / 153 := by
    clear ha hb hyear hday
    split at hmonth <;> split at hmonth <;> omega
  rw [hmonths] at hyear hday
  have hyears : era * 400 + y = era' * 400 + y' := by
    clear ha hb hmonth hday
    omega
  obtain rfl : era = era' := by omega
  obtain rfl : y = y' := by omega
  obtain rfl : n = n' := by
    clear ha hb hmonth hyear
    omega
  rw [ha, hb]

/-- From 0001-01-01 to 9999-12-31, in UTC. -/
def InCalendar (instant : Int) : Prop :=
  -719162 * dayLength ≤ instant ∧ instant < 2932897 * dayLength

instance (instant : Int) : Decidable (InCalendar instant) := inferInstanceAs (Decidable (_ ∧ _))

theorem civil_bounds {instant : Int} (h : InCalendar instant) :
    (0 ≤ (civil (instant / dayLength)).1 ∧ (civil (instant / dayLength)).1 < 10 ^ 4) ∧
    (0 ≤ (civil (instant / dayLength)).2.1 ∧ (civil (instant / dayLength)).2.1 < 10 ^ 2) ∧
    (0 ≤ (civil (instant / dayLength)).2.2 ∧ (civil (instant / dayLength)).2.2 < 10 ^ 2) := by
  have hdays : -719162 ≤ instant / dayLength ∧ instant / dayLength < 2932897 := by
    unfold InCalendar dayLength at *
    omega
  obtain ⟨era, y, n, hy, hn, hday, hcivil⟩ := civil_eq (instant / dayLength)
  rw [hcivil]
  rw [hday] at hdays
  clear hcivil hday
  simp only
  refine ⟨⟨?_, ?_⟩, ⟨?_, ?_⟩, ?_, ?_⟩
  · split <;> omega
  · split <;> omega
  · split <;> omega
  · split <;> omega
  · omega
  · omega

/-! ## Timestamps -/

/-- A timestamp up to its seconds. -/
def upToSeconds (instant : Int) : List Char :=
  let (year, month, day) := civil (instant / dayLength)
  let time := instant % dayLength
  digits 4 year ++ '-' :: digits 2 month ++ '-' :: digits 2 day ++
    'T' :: digits 2 (time / 3600000000) ++ ':' :: digits 2 (time / 60000000 % 60) ++
    ':' :: digits 2 (time / 1000000 % 60)

def fraction (time : Int) : List Char :=
  if time % 1000000 = 0 then [] else '.' :: digits 6 (time % 1000000)

theorem toList_isoformat (t : Int) :
    (isoformat t).toList = upToSeconds t ++ fraction (t % dayLength) ++ "+00:00".toList :=
  String.toList_ofList

theorem length_upToSeconds (t : Int) : (upToSeconds t).length = 19 := by
  unfold upToSeconds
  simp only [List.length_append, List.length_cons, length_digits]

theorem fraction_inj {time time' : Int} (h : fraction time = fraction time') :
    time % 1000000 = time' % 1000000 := by
  unfold fraction at h
  split at h <;> split at h
  · omega
  · cases h
  · cases h
  · exact digits_inj (by omega) (by omega) (List.tail_eq_of_cons_eq h)

theorem upToSeconds_inj {a b : Int} (ha : InCalendar a) (hb : InCalendar b)
    (h : upToSeconds a = upToSeconds b) :
    a / dayLength = b / dayLength ∧ a % dayLength / 1000000 = b % dayLength / 1000000 := by
  obtain ⟨hyear, hmonth, hday⟩ := civil_bounds ha
  obtain ⟨hyear', hmonth', hday'⟩ := civil_bounds hb
  have htime : 0 ≤ a % dayLength ∧ a % dayLength < dayLength :=
    ⟨Int.emod_nonneg _ (by decide), Int.emod_lt_of_pos _ (by decide)⟩
  have htime' : 0 ≤ b % dayLength ∧ b % dayLength < dayLength :=
    ⟨Int.emod_nonneg _ (by decide), Int.emod_lt_of_pos _ (by decide)⟩
  unfold upToSeconds at h
  simp only at h
  unfold dayLength at htime htime'
  -- from the right, field by field
  obtain ⟨h, hs⟩ := List.append_inj' h (by simp)
  obtain ⟨h, hmin⟩ := List.append_inj' h (by simp)
  obtain ⟨h, hhour⟩ := List.append_inj' h (by simp)
  obtain ⟨h, hd⟩ := List.append_inj' h (by simp)
  obtain ⟨hy, hm⟩ := List.append_inj' h (by simp)
  have hdate : civil (a / dayLength) = civil (b / dayLength) :=
    Prod.ext (digits_inj hyear hyear' hy) (Prod.ext
      (digits_inj hmonth hmonth' (List.tail_eq_of_cons_eq hm))
      (digits_inj hday hday' (List.tail_eq_of_cons_eq hd)))
  refine ⟨civil_inj hdate, ?_⟩
  unfold dayLength at hs hmin hhour ⊢
  have hhour := digits_inj (by omega) (by omega) (List.tail_eq_of_cons_eq hhour)
  have hmin := digits_inj (by omega) (by omega) (List.tail_eq_of_cons_eq hmin)
  have hs := digits_inj (by omega) (by omega) (List.tail_eq_of_cons_eq hs)
  omega

theorem isoformat_inj {a b : Int} (ha : InCalendar a) (hb : InCalendar b)
    (h : isoformat a = isoformat b) : a = b := by
  have h := congrArg String.toList h
  rw [toList_isoformat, toList_isoformat] at h
  obtain ⟨h, -⟩ := List.append_inj' h rfl
  obtain ⟨hstamp, hfraction⟩ :=
    List.append_inj h (by rw [length_upToSeconds, length_upToSeconds])
  obtain ⟨hday, hseconds⟩ := upToSeconds_inj ha hb hstamp
  have hmicros := fraction_inj hfraction
  unfold dayLength at *
  omega

/-- The ends of the keys. -/
def timestamps : Set (List Char) := { s | ∃ t, s = ':' :: (isoformat t).toList }

theorem length_timestamp (t : Int) : (isoformat t).toList.length =
    if t % dayLength % 1000000 = 0 then 25 else 32 := by
  rw [toList_isoformat, List.length_append, List.length_append, length_upToSeconds]
  unfold fraction
  split
  · rfl
  · rw [List.length_cons, length_digits]
    rfl

-- Where the shorter timestamp would begin, with its colon, the longer has a digit of the month.
theorem suffixCode_timestamps : SuffixCode timestamps := by
  refine SuffixCode.of_drop ?_
  rintro _ ⟨a, rfl⟩ _ ⟨b, rfl⟩ hlt heq
  rw [List.length_cons, List.length_cons, length_timestamp, length_timestamp] at hlt heq
  rw [if_neg (by split at hlt <;> split at hlt <;> omega),
    if_pos (by split at hlt <;> split at hlt <;> omega), toList_isoformat] at heq
  simp only [upToSeconds, digits, List.nil_append, List.cons_append, Nat.reduceAdd,
    Nat.reduceSub, List.drop_succ_cons, List.drop_zero, List.cons.injEq] at heq
  have hdigit := congrArg Char.toNat heq.1
  rw [toNat_digit (by omega)] at hdigit
  change 48 + _ = 58 at hdigit
  omega

/-! ## Keys -/

/-- The key that a slot's run is enqueued under; `none` is the OverflowError of `astimezone`. -/
def runKey (name : String) (slot : Aware) : Option String :=
  if InCalendar slot.instant then some (slotKey name slot.instant) else none

theorem slotKey_inj {name name' : String} {a b : Int} (ha : InCalendar a) (hb : InCalendar b)
    (h : slotKey name a = slotKey name' b) : name = name' ∧ a = b := by
  have h := congrArg String.toList h
  simp only [slotKey, String.toList_append, List.append_assoc] at h
  obtain ⟨hname, hstamp⟩ :=
    suffixCode_timestamps.append_inj ⟨a, rfl⟩ ⟨b, rfl⟩ (List.append_cancel_left h)
  exact ⟨String.toList_injective hname,
    isoformat_inj ha hb (String.toList_injective (List.tail_eq_of_cons_eq hstamp))⟩

-- The keys of a pass are these.
theorem exists_runKey_of_handle {zones : ZoneInfo} {session : Zone} {now : Int} {row : Schedule}
    {d : Decision} {key : String} (h : row.handle zones session now = some d)
    (hkey : d.key = some key) (hslot : InCalendar d.slot) :
    ∃ slot : Aware, slot.instant = d.slot ∧ runKey row.name slot = some key := by
  obtain ⟨slot, -, h⟩ := Option.bind_eq_some_iff.mp h
  obtain ⟨next, -, rfl⟩ := Option.map_eq_some_iff.mp h
  have hutc : (Clock.inUtc (slot.instant session)).instant = slot.instant session := Int.sub_zero _
  refine ⟨_, hutc, ?_⟩
  simp only at hkey hslot
  split at hkey
  · cases hkey
  · rw [runKey, hutc, if_pos hslot, hkey]

/-- No run is taken for another's: an enqueue returns the job of a slot only if it is the slot's
own. -/
theorem runKey_eq_iff {name name' : String} {slot slot' : Aware} {key key' : String}
    (h : runKey name slot = some key) (h' : runKey name' slot' = some key') :
    (key = key' ↔ name = name' ∧ slot.instant = slot'.instant) ∧
      ∀ (t : Jobs) (r : Job) (task : String) (args : Json) (now : Int), t.row r.id = some r →
        r.idempotencyKey = some key →
          ((t.enqueue task args (some key') now).2 = r.id ↔
            name = name' ∧ slot.instant = slot'.instant) := by
  have hiff : key = key' ↔ name = name' ∧ slot.instant = slot'.instant := by
    unfold runKey at h h'
    split at h <;> split at h'
    · rename_i hslot hslot'
      obtain rfl := Option.some.inj h
      obtain rfl := Option.some.inj h'
      constructor
      · exact slotKey_inj hslot hslot'
      · rintro ⟨rfl, heq⟩
        rw [heq]
    · cases h'
    · cases h
    · cases h
  refine ⟨hiff, fun t r task args now hr hkey ↦ ?_⟩
  rw [← hiff]
  obtain ⟨x, hx, hxkey⟩ := t.row_enqueue_id task args key' now
  have hrow := Jobs.row_enqueue_of_some task args (some key') now hr
  constructor
  · intro hid
    rw [hid, hrow] at hx
    obtain rfl := Option.some.inj hx
    exact Option.some.inj (hkey.symm.trans hxkey)
  · rintro rfl
    have heq := Jobs.eq_of_key (Jobs.row_mem hx) (Jobs.row_mem hrow) hxkey hkey
    rw [← heq, Jobs.row_id hx]

/-- A name that ends like the key of another schedule. -/
theorem runKey_eq_iff_colons :
    ("sched:a:1970-01-01T00:00:00+00:00:1970-01-01T00:00:00+00:00" =
        "sched:a:1970-01-01T00:00:00+00:00" ↔
      "a:1970-01-01T00:00:00+00:00" = "a" ∧
        (Clock.inUtc 0).instant = (Clock.inUtc 0).instant) ∧
      ∀ (t : Jobs) (r : Job) (task : String) (args : Json) (now : Int), t.row r.id = some r →
        r.idempotencyKey = some "sched:a:1970-01-01T00:00:00+00:00:1970-01-01T00:00:00+00:00" →
          ((t.enqueue task args (some "sched:a:1970-01-01T00:00:00+00:00") now).2 = r.id ↔
            "a:1970-01-01T00:00:00+00:00" = "a" ∧
              (Clock.inUtc 0).instant = (Clock.inUtc 0).instant) :=
  runKey_eq_iff (by decide) (by decide)

end DurableQueue
