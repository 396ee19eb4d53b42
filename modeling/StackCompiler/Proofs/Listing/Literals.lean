import Mathlib.Tactic.SplitIfs
import StackCompiler.Text

/-!
Texts that can be read back: pieces none of which begins another, numerals, and quoted characters and
strings, whichever characters are printed as themselves.
-/

set_option autoImplicit false
namespace StackCompiler

variable {α β : Type}

/-- The stretch with a property up to the first element without it is determined. -/
theorem append_split {p : α → Prop} {xs ys us vs : List α} (hxs : ∀ x ∈ xs, p x) (hys : ∀ y ∈ ys, p y)
    (hus : ∀ u ∈ us.head?, ¬ p u) (hvs : ∀ v ∈ vs.head?, ¬ p v) (h : xs ++ us = ys ++ vs) :
    xs = ys ∧ us = vs := by
  induction xs generalizing ys with
  | nil =>
    cases ys with
    | nil => exact ⟨rfl, h⟩
    | cons y ys =>
      obtain rfl : us = y :: (ys ++ vs) := h
      exact absurd (hys y (by simp)) (hus y (by simp))
  | cons x xs ih =>
    cases ys with
    | nil =>
      obtain rfl : x :: (xs ++ us) = vs := h
      exact absurd (hxs x (by simp)) (hvs x (by simp))
    | cons y ys =>
      rw [List.forall_mem_cons] at hxs hys
      obtain ⟨rfl, htail⟩ := List.cons.inj h
      obtain ⟨rfl, hrest⟩ := ih hxs.2 hys.2 htail
      exact ⟨rfl, hrest⟩

/-- The texts of the elements of `s`: none is empty, and none begins that of another. -/
structure PrefixFree (s : β → Prop) (text : β → List α) : Prop where
  nonempty {x : β} (hx : s x) : text x ≠ []
  unique {x y : β} {us vs : List α} (hx : s x) (hy : s y) (h : text x ++ us = text y ++ vs) : x = y ∧ us = vs

namespace PrefixFree

variable {s : β → Prop} {text : β → List α}

/-- Such texts one after the other can be told apart. -/
theorem flatMap_inj (free : PrefixFree s text) {xs ys : List β} (hxs : ∀ x ∈ xs, s x) (hys : ∀ y ∈ ys, s y)
    (h : xs.flatMap text = ys.flatMap text) : xs = ys := by
  induction xs generalizing ys with
  | nil =>
    cases ys with
    | nil => rfl
    | cons y ys =>
      rw [List.flatMap_nil, List.flatMap_cons] at h
      exact absurd (List.append_eq_nil_iff.1 h.symm).1 (free.nonempty (hys y (by simp)))
  | cons x xs ih =>
    cases ys with
    | nil =>
      rw [List.flatMap_nil, List.flatMap_cons] at h
      exact absurd (List.append_eq_nil_iff.1 h).1 (free.nonempty (hxs x (by simp)))
    | cons y ys =>
      rw [List.forall_mem_cons] at hxs hys
      obtain ⟨rfl, hrest⟩ := free.unique hxs.1 hys.1 h
      rw [ih hxs.2 hys.2 hrest]

/-- What can be read back begins nothing else. -/
theorem of_reader (read : List α → Option (β × List α)) (empty : read [] = none)
    (back : ∀ x, s x → ∀ rest, read (text x ++ rest) = some (x, rest)) : PrefixFree s text where
  nonempty {x} hx hnil := by
    have h := back x hx []
    rw [hnil, List.append_nil, empty] at h
    cases h
  unique {x y us vs} hx hy h := by
    have hboth := back x hx us
    rw [h, back y hy vs] at hboth
    cases hboth
    exact ⟨rfl, rfl⟩

/-- What ends in a mark that does not occur before. -/
theorem ended (mark : α) (more : List α) :
    PrefixFree (fun text : List α => mark ∉ text) fun text => text ++ mark :: more where
  nonempty _ := by simp
  unique {x y us vs} hx hy h := by
    simp only [List.append_assoc] at h
    obtain ⟨rfl, hrest⟩ := @append_split _ (· ≠ mark) _ _ _ _ (fun c hc => ne_of_mem_of_not_mem hc hx)
      (fun c hc => ne_of_mem_of_not_mem hc hy) (by simp) (by simp) h
    exact ⟨rfl, List.append_cancel_left hrest⟩

/-- A text up to the first occurrence of a mark. -/
theorem cut {mark : String} {c : Char} (hmark : mark.toList.head? = some c) {text text' rest rest' : String}
    (htext : c ∉ text.toList) (htext' : c ∉ text'.toList) (h : text ++ (mark ++ rest) = text' ++ (mark ++ rest')) :
    text = text' ∧ rest = rest' := by
  obtain ⟨more, hmark⟩ := List.head?_eq_some_iff.1 hmark
  have h := congrArg String.toList h
  simp only [String.toList_append, hmark, ← List.append_assoc] at h
  obtain ⟨htexts, hrests⟩ := (ended c more).unique htext htext' h
  exact ⟨String.toList_inj.1 htexts, String.toList_inj.1 hrests⟩

end PrefixFree

/-! Lists written with a separator. -/

theorem intercalate_ended (separator : List α) {xs : List (List α)} (h : xs ≠ []) :
    separator.intercalate xs ++ separator = xs.flatMap (· ++ separator) := by
  induction xs with
  | nil => exact absurd rfl h
  | cons x xs ih =>
    cases xs with
    | nil => simp
    | cons y ys =>
      rw [List.intercalate_cons_cons, List.append_assoc, ih (by simp)]
      rfl

theorem mem_of_mem_intercalate {separator : List α} {xs : List (List α)} {a : α}
    (h : a ∈ separator.intercalate xs) : a ∈ separator ∨ ∃ x ∈ xs, a ∈ x := by
  cases xs with
  | nil => simp at h
  | cons x xs =>
    have hmem : a ∈ (x :: xs).flatMap (· ++ separator) := by
      rw [← intercalate_ended separator (by simp)]
      exact List.mem_append_left _ h
    obtain ⟨y, hy, ha⟩ := List.mem_flatMap.1 hmem
    exact (List.mem_append.1 ha).symm.imp_right fun ha => ⟨y, hy, ha⟩

/-- Texts that are not empty and do not have the first mark of the separator can be told apart. -/
theorem intercalate_inj {mark : α} {more : List α} {xs ys : List (List α)} (hxs : ∀ x ∈ xs, x ≠ [] ∧ mark ∉ x)
    (hys : ∀ y ∈ ys, y ≠ [] ∧ mark ∉ y)
    (h : (mark :: more).intercalate xs = (mark :: more).intercalate ys) : xs = ys := by
  have hfilled : ∀ x : List α, x ≠ [] → ∀ xs, (mark :: more).intercalate (x :: xs) ≠ [] := by
    intro x hx xs
    cases xs <;> simp [List.intercalate_cons_cons, hx]
  cases xs with
  | nil =>
    cases ys with
    | nil => rfl
    | cons y ys => exact absurd h.symm (hfilled y (hys y (by simp)).1 ys)
  | cons x xs =>
    cases ys with
    | nil => exact absurd h (hfilled x (hxs x (by simp)).1 xs)
    | cons y ys =>
      have hended := congrArg (· ++ mark :: more) h
      simp only [intercalate_ended _ (List.cons_ne_nil _ _)] at hended
      exact (PrefixFree.ended mark more).flatMap_inj (fun x hx => (hxs x hx).2) (fun y hy => (hys y hy).2) hended

namespace Text

/-! Numerals. -/

def digitValue (d : Char) : Nat :=
  if d.isDigit then d.toNat - '0'.toNat else d.toNat - 'a'.toNat + 10

def valueIn (base : Nat) (digits : List Char) : Nat :=
  digits.foldl (fun n d => base * n + digitValue d) 0

theorem digitValue_digitChar : ∀ k < 16, digitValue (Nat.digitChar k) = k := by
  decide

variable {base : Nat}

theorem mem_toDigits (h : 1 < base) (n : Nat) :
    ∀ d ∈ Nat.toDigits base n, ∃ k < base, d = Nat.digitChar k := by
  induction n using Nat.strongRecOn with
  | ind n ih =>
    rw [Nat.toDigits_eq_if h]
    split
    next hlt => simpa using ⟨n, hlt, rfl⟩
    next hle =>
      intro d hd
      rcases List.mem_append.1 hd with hd | hd
      · exact ih (n / base) (Nat.div_lt_self (by omega) h) d hd
      · exact ⟨n % base, Nat.mod_lt n (by omega), by simpa using hd⟩

theorem valueIn_toDigits (h : 1 < base) (h' : base ≤ 16) (n : Nat) :
    valueIn base (Nat.toDigits base n) = n := by
  induction n using Nat.strongRecOn with
  | ind n ih =>
    rw [Nat.toDigits_eq_if h]
    split
    next hlt => simp [valueIn, digitValue_digitChar n (by omega)]
    next hle =>
      have hfront := ih (n / base) (Nat.div_lt_self (by omega) h)
      have hmod : n % base < base := Nat.mod_lt n (by omega)
      rw [valueIn] at hfront
      rw [valueIn, List.foldl_append, hfront, List.foldl_cons, List.foldl_nil,
        digitValue_digitChar _ (by omega), Nat.div_add_mod]

/-- A mark that is no digit does not occur in a numeral. -/
theorem not_mem_toDigits (h : 1 < base) (h' : base ≤ 16) {c : Char} (hc : ∀ k < 16, c ≠ Nat.digitChar k)
    (n : Nat) : c ∉ Nat.toDigits base n := by
  intro hmem
  obtain ⟨k, hk, hd⟩ := mem_toDigits h n c hmem
  exact hc k (by omega) hd

theorem repr_nat_inj {n m : Nat} (h : n.repr = m.repr) : n = m := by
  rw [Nat.repr_eq_ofList_toDigits, Nat.repr_eq_ofList_toDigits, String.ofList_inj] at h
  rw [← @valueIn_toDigits 10 (by decide) (by decide) n, h, valueIn_toDigits (by decide) (by decide)]

theorem not_mem_repr {c : Char} (hc : ∀ k < 16, c ≠ Nat.digitChar k) (n : Nat) : c ∉ n.repr.toList := by
  rw [Nat.toList_repr]
  exact not_mem_toDigits (by decide) (by decide) hc n

theorem repr_nat_inLine (n : Nat) : '\n' ∉ n.repr.toList :=
  not_mem_repr (by decide) n

/-- The sign of a negative number tells it from the others. -/
theorem repr_int_inj {i j : Int} (h : i.repr = j.repr) : i = j := by
  have hsign : ∀ m n : Nat, m.repr ≠ "-" ++ n.repr := by
    intro m n h
    have hmem : '-' ∈ m.repr.toList := by simp [h]
    exact not_mem_repr (by decide) m hmem
  cases i with
  | ofNat m =>
    cases j with
    | ofNat n => exact congrArg Int.ofNat (repr_nat_inj h)
    | negSucc n => exact absurd h (hsign m _)
  | negSucc m =>
    cases j with
    | ofNat n => exact absurd h.symm (hsign n _)
    | negSucc n =>
      have hdigits : (m + 1).repr = (n + 1).repr := (String.append_right_inj "-").1 h
      exact congrArg Int.negSucc (Nat.succ.inj (repr_nat_inj hdigits))

theorem repr_int_inLine (i : Int) : '\n' ∉ i.repr.toList := by
  cases i with
  | ofNat n => exact repr_nat_inLine n
  | negSucc n =>
    simpa [Int.repr] using repr_nat_inLine (n + 1)

/-! Literals. -/

variable (printable : Char → Bool) {quote : Char}

def behindBackslash (c : Char) : Char :=
  if c = '0' then '\x00' else if c = 't' then '\t' else if c = 'n' then '\n' else if c = 'r' then '\r' else c

def unescape : List Char → Option (Char × List Char)
  | [] => none
  | c :: rest =>
    if c = '\\' then
      match rest with
      | [] => none
      | d :: rest =>
        if d = 'u' then
          some (Char.ofNat (valueIn 16 ((rest.drop 1).takeWhile (· != '\x7d'))),
            ((rest.drop 1).dropWhile (· != '\x7d')).drop 1)
        else
          some (behindBackslash d, rest)
    else
      some (c, rest)

theorem unescape_codePoint (c : Char) (rest : List Char) :
    unescape (codePoint c ++ rest) = some (c, rest) := by
  have hdigits : ∀ d ∈ Nat.toDigits 16 c.toNat, (d != '\x7d') = true := fun d hd => by
    simpa using ne_of_mem_of_not_mem hd (not_mem_toDigits (by decide) (by decide) (by decide) _)
  have hvalue := @valueIn_toDigits 16 (by decide) (by decide) c.toNat
  simp [codePoint, unescape, List.takeWhile_append_of_pos hdigits, List.dropWhile_append_of_pos hdigits, hvalue]

theorem unescape_escape (hquote : quote = '\'' ∨ quote = '"') (c : Char) (rest : List Char) :
    unescape (escape printable quote c ++ rest) = some (c, rest) := by
  unfold escape
  split_ifs with hplain hnul htab hnewline hreturn hprintable
  · rcases hplain with rfl | rfl
    · rcases hquote with rfl | rfl <;> rfl
    · rfl
  · rw [hnul]
    rfl
  · rw [htab]
    rfl
  · rw [hnewline]
    rfl
  · rw [hreturn]
    rfl
  · exact if_neg (not_or.1 hplain).2
  · exact unescape_codePoint c rest

theorem escape_free (hquote : quote = '\'' ∨ quote = '"') :
    PrefixFree (fun _ => True) (escape printable quote) :=
  .of_reader unescape rfl fun c _ rest => unescape_escape printable hquote c rest

/-- Nothing that is escaped breaks the line. -/
theorem escape_inLine (hquote : quote = '\'' ∨ quote = '"') (c : Char) :
    '\n' ∉ escape printable quote c := by
  unfold escape
  split_ifs with hplain hnul htab hnewline hreturn hprintable
  · rcases hplain with rfl | rfl
    · rcases hquote with rfl | rfl <;> decide
    · decide
  · decide
  · decide
  · decide
  · decide
  · simpa using Ne.symm hnewline
  · have hdigits := @not_mem_toDigits 16 (by decide) (by decide) '\n' (by decide) c.toNat
    simp [codePoint, hdigits]

theorem quoteWith_inj (hquote : quote = '\'' ∨ quote = '"') {text text' : List Char}
    (h : quoteWith printable quote text = quoteWith printable quote text') : text = text' := by
  rw [quoteWith, quoteWith, String.ofList_inj, List.append_cancel_right_eq, List.cons.injEq] at h
  exact (escape_free printable hquote).flatMap_inj (by simp) (by simp) h.2

theorem quoteWith_inLine (hquote : quote = '\'' ∨ quote = '"') (text : List Char) :
    '\n' ∉ (quoteWith printable quote text).toList := by
  have hends : '\n' ≠ quote := by rcases hquote with rfl | rfl <;> decide
  simp [quoteWith, hends, escape_inLine printable hquote]

end Text

end StackCompiler
