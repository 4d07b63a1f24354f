import AsmKit.Command.Placements
import AsmKit.Proofs.Numerals

/-
  Placements read from arguments. `Asks arg name n` says that an argument is a name, `@` and a
  spelling of the number `n`. Arguments are read one after the other, and what was read so far is
  what they ask for with the first of each section (`Granted`); the first argument that asks for
  nothing, or for a number past the last address, ends the reading.
-/

namespace AsmKit

/-! ## One argument -/

namespace Placements

/-- An argument is a name, `@` and the digits of a number. -/
structure HasForm (arg name : Bytes) (base : Nat) (digits : Bytes) : Prop where
  nonempty : name ≠ []
  word : ∀ b ∈ name, Ascii.isWord b = true
  spelled : ∃ address, arg = name ++ 0x40 :: address ∧ Number.Spelled address base digits

/-- An argument asks for a section at a number, which may be too large for an address. -/
def Asks (arg name : Bytes) (n : Nat) : Prop :=
  ∃ base digits, HasForm arg name base digits ∧ Number.value base digits = n

/-- Why an argument is refused. The complaint names it either way. -/
inductive Refused (arg : Bytes) : Error → Prop
  | form (h : ∀ name base digits, ¬ HasForm arg name base digits) :
    Refused arg (.about .usage (title arg))
  | range {name digits : Bytes} {base : Nat} (h : HasForm arg name base digits)
    (hvalue : 2 ^ 32 ≤ Number.value base digits) :
    Refused arg (.because { kind := .usage, name := title arg }
      (.plain (.number ⟨.natural, digits, .outOfRange⟩)))

variable {arg name address digits : Bytes} {base : Nat}

theorem split?_eq_some_iff : split? arg = some (name, address) ↔
    arg = name ++ 0x40 :: address ∧ name ≠ [] ∧ (∀ b ∈ name, Ascii.isWord b = true) ∧
      (address.isDecimal || address.isHexadecimal) = true := by
  have hsplit := List.takeWhile_append_dropWhile (p := Ascii.isWord) (l := arg)
  unfold split?
  dsimp only
  constructor
  · intro h
    split at h
    · next rest hrest =>
      split at h
      · next hcond =>
        cases h
        obtain ⟨hne, haddress⟩ := Bool.and_eq_true_iff.mp hcond
        rw [hrest] at hsplit
        exact ⟨hsplit.symm, by simpa using hne, List.all_eq_true.mp List.all_takeWhile, haddress⟩
      · cases h
    · cases h
  · rintro ⟨rfl, hne, hword, haddress⟩
    rw [List.takeWhile_append_of_pos hword, List.dropWhile_append_of_pos hword,
      List.takeWhile_cons_of_neg (by decide), List.dropWhile_cons_of_neg (by decide)]
    rw [List.append_nil]
    show (if (!name.isEmpty && (address.isDecimal || address.isHexadecimal)) = true then
      some (name, address) else none) = some (name, address)
    rw [haddress, if_pos (by simpa using hne)]

theorem HasForm.readOne (h : HasForm arg name base digits) :
    readOne arg = if Number.value base digits < 2 ^ 32 then
      .ok (name, UInt32.ofNat (Number.value base digits))
    else .error (.because { kind := .usage, name := title arg }
      (.plain (.number ⟨.natural, digits, .outOfRange⟩))) := by
  obtain ⟨address, harg, hspelled⟩ := h.spelled
  have hsplit : split? arg = some (name, address) := split?_eq_some_iff.mpr
    ⟨harg, h.nonempty, h.word, Number.exists_spelled_iff.mp ⟨base, digits, hspelled⟩⟩
  unfold Placements.readOne
  rw [hsplit]
  dsimp only
  rw [hspelled.readNumeral]
  by_cases hvalue : Number.value base digits < 2 ^ 32
  · rw [if_pos hvalue, if_pos hvalue]
  · rw [if_neg hvalue, if_neg hvalue]

theorem readOne_of_not_form (h : ∀ name base digits, ¬ HasForm arg name base digits) :
    readOne arg = .error (.about .usage (title arg)) := by
  have hsplit : split? arg = none := by
    rw [Option.eq_none_iff_forall_ne_some]
    rintro ⟨name, address⟩ hsome
    obtain ⟨harg, hne, hword, haddress⟩ := split?_eq_some_iff.mp hsome
    obtain ⟨base, digits, hspelled⟩ := Number.exists_spelled_iff.mpr haddress
    exact h name base digits ⟨hne, hword, address, harg, hspelled⟩
  unfold readOne
  rw [hsplit]

theorem readOne_eq_ok_iff {a : UInt32} : readOne arg = .ok (name, a) ↔ Asks arg name a.toNat := by
  constructor
  · intro h
    by_cases hform : ∃ name base digits, HasForm arg name base digits
    · obtain ⟨name', base, digits, hform⟩ := hform
      rw [hform.readOne] at h
      split at h
      · next hvalue =>
        cases h
        exact ⟨base, digits, hform, (UInt32.toNat_ofNat_of_lt' hvalue).symm⟩
      · cases h
    · rw [readOne_of_not_form (by simpa using hform)] at h
      cases h
  · rintro ⟨base, digits, hform, hvalue⟩
    rw [hform.readOne, hvalue, if_pos a.toNat_lt, UInt32.ofNat_toNat]

theorem readOne_eq_error_iff {e : Error} : readOne arg = .error e ↔ Refused arg e := by
  constructor
  · intro h
    by_cases hform : ∃ name base digits, HasForm arg name base digits
    · obtain ⟨name, base, digits, hform⟩ := hform
      rw [hform.readOne] at h
      split at h
      · cases h
      · next hvalue =>
        cases h
        exact .range hform (Nat.not_lt.mp hvalue)
    · have hform : ∀ name base digits, ¬ HasForm arg name base digits := by simpa using hform
      rw [readOne_of_not_form hform] at h
      cases h
      exact .form hform
  · rintro (hform | ⟨hform, hvalue⟩)
    · exact readOne_of_not_form hform
    · rw [hform.readOne, if_neg (Nat.not_lt.mpr hvalue)]

/-- A section and an address that there is. -/
def IsPlacement (arg : Bytes) : Prop := ∃ name n, Asks arg name n ∧ n < 2 ^ 32

theorem isPlacement_iff : IsPlacement arg ↔ ∃ p, readOne arg = .ok p := by
  constructor
  · rintro ⟨name, n, hasks, hn⟩
    refine ⟨(name, UInt32.ofNat n), readOne_eq_ok_iff.mpr ?_⟩
    rw [UInt32.toNat_ofNat_of_lt' hn]
    exact hasks
  · rintro ⟨⟨name, a⟩, hread⟩
    exact ⟨name, a.toNat, readOne_eq_ok_iff.mp hread, a.toNat_lt⟩

theorem Asks.name_eq {name' : Bytes} {n n' : Nat} (h : Asks arg name n) (h' : Asks arg name' n') :
    name = name' := by
  have hsplit {name : Bytes} {n : Nat} (h : Asks arg name n) :
      ∃ address, split? arg = some (name, address) := by
    obtain ⟨base, digits, hform, -⟩ := h
    obtain ⟨address, harg, hspelled⟩ := hform.spelled
    exact ⟨address, split?_eq_some_iff.mpr
      ⟨harg, hform.nonempty, hform.word, Number.exists_spelled_iff.mp ⟨base, digits, hspelled⟩⟩⟩
  obtain ⟨address, haddress⟩ := hsplit h
  obtain ⟨address', haddress'⟩ := hsplit h'
  rw [haddress] at haddress'
  cases haddress'
  rfl

/-! ## All arguments -/

/-- Of the arguments that name a section, the first asks for it at a number. -/
def FirstAsked (args : List Bytes) (name : Bytes) (n : Nat) : Prop :=
  ∃ front arg back, args = front ++ arg :: back ∧ Asks arg name n ∧
    ∀ x ∈ front, ∀ m, ¬ Asks x name m

/-- Placements of the sections that arguments name, each once and where the first of its arguments
asks for it. -/
structure Granted (args : List Bytes) (ps : Placements) : Prop where
  nodup : (ps.map Prod.fst).Nodup
  names : ∀ name, name ∈ ps.map Prod.fst ↔ ∃ arg ∈ args, ∃ n, Asks arg name n
  first : ∀ name a, (name, a) ∈ ps → FirstAsked args name a.toNat

variable {args front rest : List Bytes} {ps ps' : Placements} {log : List Event} {a : UInt32}

theorem FirstAsked.append {n : Nat} (h : FirstAsked args name n) (more : List Bytes) :
    FirstAsked (args ++ more) name n := by
  obtain ⟨front, arg, back, rfl, hasks, hfirst⟩ := h
  exact ⟨front, arg, back ++ more, by simp, hasks, hfirst⟩

theorem granted_nil : Granted [] [] where
  nodup := List.nodup_nil
  names := by simp
  first := by simp

theorem Granted.reverse (h : Granted args ps) : Granted args ps.reverse where
  nodup := by
    rw [List.map_reverse]
    exact (List.reverse_perm _).nodup_iff.mpr h.nodup
  names name := by
    rw [List.map_reverse, List.mem_reverse]
    exact h.names name
  first name a hmem := h.first name a (List.mem_reverse.mp hmem)

/-- An argument for a section that has a place changes nothing. -/
theorem Granted.again (h : Granted args ps) {n : Nat} (hasks : Asks arg name n)
    (hmem : name ∈ ps.map Prod.fst) : Granted (args ++ [arg]) ps where
  nodup := h.nodup
  names other := by
    rw [h.names]
    constructor
    · rintro ⟨x, hx, hother⟩
      exact ⟨x, List.mem_append_left _ hx, hother⟩
    · rintro ⟨x, hx, m, hother⟩
      rcases List.mem_append.mp hx with hx | hx
      · exact ⟨x, hx, m, hother⟩
      · rw [List.mem_singleton.mp hx] at hother
        rw [← hasks.name_eq hother]
        exact (h.names name).mp hmem
  first other a hother := (h.first other a hother).append [arg]

theorem Granted.new (h : Granted args ps) (hasks : Asks arg name a.toNat)
    (hnew : name ∉ ps.map Prod.fst) : Granted (args ++ [arg]) ((name, a) :: ps) where
  nodup := List.nodup_cons.mpr ⟨hnew, h.nodup⟩
  names other := by
    rw [List.map_cons, List.mem_cons, h.names]
    constructor
    · rintro (rfl | ⟨x, hx, hother⟩)
      · exact ⟨arg, by simp, a.toNat, hasks⟩
      · exact ⟨x, List.mem_append_left _ hx, hother⟩
    · rintro ⟨x, hx, m, hother⟩
      rcases List.mem_append.mp hx with hx | hx
      · exact .inr ⟨x, hx, m, hother⟩
      · rw [List.mem_singleton.mp hx] at hother
        exact .inl (hasks.name_eq hother).symm
  first other b hother := by
    rcases List.mem_cons.mp hother with hother | hother
    · cases hother
      refine ⟨args, arg, [], rfl, hasks, fun x hx m hm => hnew ?_⟩
      exact (h.names name).mpr ⟨x, hx, m, hm⟩
    · exact (h.first other b hother).append [arg]

/-- An argument that can be read takes the placements of those before it to the placements with it. -/
theorem readFrom_cons_of_ok (ps : Placements) (log : List Event) (h : readOne arg = .ok (name, a))
    (rest : List Bytes) : ∃ ps' log', readFrom ps log (arg :: rest) = readFrom ps' log' rest ∧
      ∀ front, Granted front ps → Granted (front ++ [arg]) ps' := by
  have hasks := readOne_eq_ok_iff.mp h
  rcases hearlier : ps.lookup name with _ | earlier
  · refine ⟨(name, a) :: ps, log, ?_, fun front hfront => hfront.new hasks fun hmem => ?_⟩
    · rw [readFrom, h]
      dsimp only
      rw [hearlier]
    · obtain ⟨p, hp, rfl⟩ := List.mem_map.mp hmem
      exact absurd (List.lookup_eq_none_iff.mp hearlier p hp) (by simp)
  · refine ⟨ps, .placementIgnored arg name earlier :: log, ?_, fun front hfront => hfront.again hasks ?_⟩
    · rw [readFrom, h]
      dsimp only
      rw [hearlier]
    · obtain ⟨before, behind, rfl, -⟩ := List.lookup_eq_some_iff.mp hearlier
      simp

theorem readFrom_cons_of_error (ps : Placements) (log : List Event) {e : Error}
    (h : readOne arg = .error e) (rest : List Bytes) :
    (readFrom ps log (arg :: rest)).1 = .error e := by
  rw [readFrom, h]

theorem Granted.readFrom (h : Granted front ps) (hread : (readFrom ps log args).1 = .ok ps') :
    Granted (front ++ args) ps' := by
  induction args generalizing front ps log with
  | nil =>
    cases hread
    rw [List.append_nil]
    exact h.reverse
  | cons arg rest ih =>
    rcases harg : readOne arg with e | ⟨name, a⟩
    · rw [readFrom_cons_of_error ps log harg rest] at hread
      cases hread
    · obtain ⟨ps₁, log₁, hstep, hgranted⟩ := readFrom_cons_of_ok ps log harg rest
      rw [hstep] at hread
      have hrest := ih (hgranted front h) hread
      rw [List.append_assoc] at hrest
      exact hrest

theorem exists_readFrom_iff :
    (∃ ps', (readFrom ps log args).1 = .ok ps') ↔ ∀ arg ∈ args, IsPlacement arg := by
  induction args generalizing ps log with
  | nil => exact iff_of_true ⟨_, rfl⟩ (List.forall_mem_nil _)
  | cons arg rest ih =>
    rw [List.forall_mem_cons, isPlacement_iff]
    rcases harg : readOne arg with e | ⟨name, a⟩
    · rw [readFrom_cons_of_error ps log harg rest]
      simp
    · obtain ⟨ps₁, log₁, hstep, -⟩ := readFrom_cons_of_ok ps log harg rest
      rw [hstep, ih]
      simp

theorem readFrom_eq_error_iff {e : Error} : (readFrom ps log args).1 = .error e ↔
    ∃ front arg back, args = front ++ arg :: back ∧ (∀ x ∈ front, IsPlacement x) ∧ Refused arg e := by
  induction args generalizing ps log with
  | nil =>
    constructor
    · intro h
      cases h
    · rintro ⟨front, arg, back, h, -⟩
      simp at h
  | cons arg rest ih =>
    rcases harg : readOne arg with e' | ⟨name, a⟩
    · rw [readFrom_cons_of_error ps log harg rest]
      constructor
      · intro h
        cases h
        exact ⟨[], arg, rest, rfl, List.forall_mem_nil _, readOne_eq_error_iff.mp harg⟩
      · rintro ⟨front, other, back, hsplit, hfront, hrefused⟩
        cases front with
        | nil =>
          cases hsplit
          cases harg.symm.trans (readOne_eq_error_iff.mpr hrefused)
          rfl
        | cons x front =>
          cases hsplit
          obtain ⟨p, hp⟩ := isPlacement_iff.mp (hfront arg List.mem_cons_self)
          rw [harg] at hp
          cases hp
    · obtain ⟨ps₁, log₁, hstep, -⟩ := readFrom_cons_of_ok ps log harg rest
      have hplacement : IsPlacement arg := isPlacement_iff.mpr ⟨(name, a), harg⟩
      rw [hstep, ih]
      constructor
      · rintro ⟨front, other, back, rfl, hfront, hrefused⟩
        exact ⟨arg :: front, other, back, rfl, List.forall_mem_cons.mpr ⟨hplacement, hfront⟩, hrefused⟩
      · rintro ⟨front, other, back, hsplit, hfront, hrefused⟩
        cases front with
        | nil =>
          cases hsplit
          rw [readOne_eq_error_iff.mpr hrefused] at harg
          cases harg
        | cons x front =>
          cases hsplit
          exact ⟨front, other, back, rfl, (List.forall_mem_cons.mp hfront).2, hrefused⟩

end Placements

open Placements in
/-- Arguments are read if each is a placement, to the placements that they name first. Otherwise the
first that is none is refused by name. -/
theorem first_arguments_place_sections (args : List Bytes) :
    ((∃ ps, (Placements.read args).1 = .ok ps) ↔ ∀ arg ∈ args, IsPlacement arg) ∧
    (∀ ps, (Placements.read args).1 = .ok ps → Granted args ps) ∧
    ∀ e, (Placements.read args).1 = .error e ↔ ∃ front arg back, args = front ++ arg :: back ∧
      (∀ x ∈ front, IsPlacement x) ∧ Refused arg e :=
  ⟨exists_readFrom_iff, fun _ hread => granted_nil.readFrom hread, fun _ => readFrom_eq_error_iff⟩

end AsmKit
