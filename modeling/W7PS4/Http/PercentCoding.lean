-- SUMMARY: Percent-escaping of URI strings and its inverse: the two passes agree, and unescaping undoes escaping.
import W7PS4.Lib.Buffer

/-!
# Percent coding

`sceHttpUriEscape` and `sceHttpUriUnescape` each go over the string twice: once to
count the bytes they need, and once more to store them. A pointer into a string is the
memory from there on, so that a pass that runs past the terminator may leave the memory.
-/

namespace Http

open List (cons_append flatMap_cons length_append length_cons mem_cons mem_cons_of_mem mem_cons_self)

inductive UriResult where
  | ok
  | invalidValue
  | outOfMemory
  | outOfSize
  | invalidUrl
deriving DecidableEq, Repr

/-- What a call leaves in `*require` and in the caller's buffer. Null pointers are `none`. -/
structure UriCall where
  result : UriResult
  require : Option Nat
  out : Option (List UInt8)
deriving DecidableEq, Repr

/-- The frame of both functions, from the end of the first pass on. -/
def storeText (needed : Outcome Nat) (into : List UInt8 → Outcome (List UInt8))
    (out : Option (List UInt8)) (require : Option Nat) (prepare : Nat) : Outcome UriCall := do
  let needed ← needed
  let require := require.map fun _ => needed
  match out with
  | none => return ⟨.ok, require, none⟩
  | some out =>
    if prepare < needed then return ⟨.outOfMemory, require, some out⟩
    let out ← into out
    return ⟨.ok, require, some out⟩

/-! ## Escaping -/

def isUnreserved (c : UInt8) : Bool :=
  ('A'.toUInt8 ≤ c && c ≤ 'Z'.toUInt8) || ('a'.toUInt8 ≤ c && c ≤ 'z'.toUInt8) ||
    ('0'.toUInt8 ≤ c && c ≤ '9'.toUInt8) ||
    c == '-'.toUInt8 || c == '_'.toUInt8 || c == '.'.toUInt8 || c == '~'.toUInt8

def hexChars : List UInt8 := "0123456789ABCDEF".toList.map Char.toUInt8

/-- The first pass. -/
def escapeNeeded : List UInt8 → Nat → Outcome Nat
  | [], _ => .error .undefined
  | c :: src, needed =>
    if c = 0 then .ok (needed + 1)
    else if isUnreserved c then escapeNeeded src (needed + 1)
    else escapeNeeded src (needed + 3)

/-- The second pass. -/
def escapeInto : List UInt8 → List UInt8 → Nat → Outcome (List UInt8)
  | [], _, _ => .error .undefined
  | c :: src, out, dst =>
    if c = 0 then Buffer.store out dst 0
    else if isUnreserved c then do
      let out ← Buffer.store out dst c
      escapeInto src out (dst + 1)
    else do
      let out ← Buffer.store out dst '%'.toUInt8
      let out ← Buffer.store out (dst + 1) (← Buffer.load hexChars ((c >>> 4) &&& 0x0F).toNat)
      let out ← Buffer.store out (dst + 2) (← Buffer.load hexChars (c &&& 0x0F).toNat)
      escapeInto src out (dst + 3)

def sceHttpUriEscape (out : Option (List UInt8)) (require : Option Nat) (prepare : Nat)
    (input : Option (List UInt8)) : Outcome UriCall :=
  match input with
  | none => .ok ⟨.invalidValue, require, out⟩
  | some input =>
    storeText (escapeNeeded input 0) (escapeInto input · 0) out require prepare

/-! ## Unescaping -/

def isHex (c : UInt8) : Bool :=
  ('0'.toUInt8 ≤ c && c ≤ '9'.toUInt8) || ('A'.toUInt8 ≤ c && c ≤ 'F'.toUInt8) ||
    ('a'.toUInt8 ≤ c && c ≤ 'f'.toUInt8)

def hexToInt (c : UInt8) : Nat :=
  if '0'.toUInt8 ≤ c && c ≤ '9'.toUInt8 then c.toNat - '0'.toNat
  else if 'A'.toUInt8 ≤ c && c ≤ 'F'.toUInt8 then c.toNat - 'A'.toNat + 10
  else if 'a'.toUInt8 ≤ c && c ≤ 'f'.toUInt8 then c.toNat - 'a'.toNat + 10
  else 0

/-- The byte of two digits. -/
def hexByte (high low : UInt8) : UInt8 := UInt8.ofNat (hexToInt high <<< 4 ||| hexToInt low)

/-- The conditions are tested from the left, and the first that fails ends the reading. -/
def isValidPercentSequence (s : List UInt8) : Outcome Bool := do
  if (← Buffer.load s 0) ≠ '%'.toUInt8 then return false
  let high ← Buffer.load s 1
  if high = 0 then return false
  let low ← Buffer.load s 2
  if low = 0 then return false
  return isHex high && isHex low

/-- The first pass; a sequence is three bytes of the string and one byte of the result. -/
def unescapeNeeded : Nat → List UInt8 → Nat → Outcome Nat
  | 0, _, _ => .error .diverges
  | turns + 1, src, needed => do
    if (← Buffer.load src 0) = 0 then return needed + 1
    if ← isValidPercentSequence src then unescapeNeeded turns (src.drop 3) (needed + 1)
    else unescapeNeeded turns (src.drop 1) (needed + 1)

/-- The second pass. -/
def unescapeInto : Nat → List UInt8 → List UInt8 → Nat → Outcome (List UInt8)
  | 0, _, _, _ => .error .diverges
  | turns + 1, src, out, dst => do
    let c ← Buffer.load src 0
    if c = 0 then Buffer.store out dst 0
    else if ← isValidPercentSequence src then do
      let out ← Buffer.store out dst (hexByte (← Buffer.load src 1) (← Buffer.load src 2))
      unescapeInto turns (src.drop 3) out (dst + 1)
    else do
      let out ← Buffer.store out dst c
      unescapeInto turns (src.drop 1) out (dst + 1)

/-- A turn moves on by a byte at least, so the string's length bounds their number. -/
def sceHttpUriUnescape (out : Option (List UInt8)) (require : Option Nat) (prepare : Nat)
    (input : Option (List UInt8)) : Outcome UriCall :=
  match input with
  | none => .ok ⟨.invalidValue, require, out⟩
  | some input =>
    storeText (unescapeNeeded (input.length + 1) input 0)
      (unescapeInto (input.length + 1) input · 0) out require prepare

/-! ## The texts -/

def escapedByte (c : UInt8) : List UInt8 :=
  if isUnreserved c then [c]
  else ['%'.toUInt8, hexChars.getD (c.toNat / 16) 0, hexChars.getD (c.toNat % 16) 0]

/-- Unreserved characters stand for themselves, all others are written in hexadecimal. -/
def escaped (s : List UInt8) : List UInt8 := s.flatMap escapedByte

/-- The byte a string begins with when its first three characters are a sequence. -/
def leadingSequence : List UInt8 → Option UInt8
  | c :: high :: low :: _ =>
    if c = '%'.toUInt8 ∧ isHex high = true ∧ isHex low = true then some (hexByte high low) else none
  | _ => none

/-- Every sequence, from the left, is replaced by its byte. -/
def unescaped : List UInt8 → List UInt8
  | [] => []
  | c :: s =>
    match leadingSequence (c :: s) with
    | some b => b :: unescaped (s.drop 2)
    | none => c :: unescaped s
termination_by s => s.length

/-- `f` gives `text` and a terminator: it reports their size, and stores them when they fit. -/
structure Stores (f : Option (List UInt8) → Option Nat → Nat → Outcome UriCall)
    (text : List UInt8) : Prop where
  query : ∀ require prepare,
    f none require prepare = .ok ⟨.ok, require.map fun _ => text.length + 1, none⟩
  refuses : ∀ out require prepare, prepare < text.length + 1 →
    f (some out) require prepare
      = .ok ⟨.outOfMemory, require.map fun _ => text.length + 1, some out⟩
  writes : ∀ out require prepare, text.length + 1 ≤ prepare → prepare ≤ out.length →
    f (some out) require prepare
      = .ok ⟨.ok, require.map fun _ => text.length + 1,
          some (text ++ 0 :: out.drop (text.length + 1))⟩

variable {s rest : List UInt8} {out : List UInt8} {c : UInt8}

theorem escapedByte_of_unreserved (h : isUnreserved c = true) : escapedByte c = [c] := if_pos h

theorem escapedByte_of_reserved (h : ¬isUnreserved c = true) :
    escapedByte c
      = ['%'.toUInt8, hexChars.getD (c.toNat / 16) 0, hexChars.getD (c.toNat % 16) 0] :=
  if_neg h

/-- A call whose two passes count and write the same text. -/
theorem stores_of_passes {text : List UInt8} {needed : Outcome Nat}
    {into : List UInt8 → Outcome (List UInt8)} (hneeded : needed = .ok (text.length + 1))
    (hinto : ∀ out, into out = Buffer.write out 0 (text ++ [0])) :
    Stores (storeText needed into) text := by
  subst hneeded
  refine ⟨fun require prepare => rfl, fun out require prepare h => if_pos h,
    fun out require prepare hle hlen => ?_⟩
  have hfits : 0 + (text ++ [0]).length ≤ out.length := by
    rw [length_append, List.length_singleton]
    omega
  have hwrite : into out = .ok (text ++ 0 :: out.drop (text.length + 1)) := by
    rw [hinto, Buffer.write_of_le hfits]
    simp
  refine (if_neg (by omega)).trans ?_
  rw [hwrite]
  rfl

/-! ## The passes of escaping -/

theorem load_hexChars {n : Nat} (h : n < 16) :
    Buffer.load hexChars n = .ok (hexChars.getD n 0) := by
  rw [Buffer.load_eq_ok, List.getElem?_eq_getElem (show n < hexChars.length from h)]
  exact congrArg some (List.getD_eq_getElem _ _ h).symm

theorem load_highDigit (c : UInt8) :
    Buffer.load hexChars ((c >>> 4) &&& 0x0F).toNat = .ok (hexChars.getD (c.toNat / 16) 0) := by
  have hlt : c.toNat / 16 < 16 := by
    have hc := c.toNat_lt
    omega
  have hdigit : ((c >>> 4) &&& 0x0F).toNat = c.toNat / 16 := by
    change (c.toNat >>> 4) &&& (2 ^ 4 - 1) = c.toNat / 16
    rw [Nat.and_two_pow_sub_one_eq_mod, Nat.shiftRight_eq_div_pow]
    exact Nat.mod_eq_of_lt hlt
  rw [hdigit, load_hexChars hlt]

theorem load_lowDigit (c : UInt8) :
    Buffer.load hexChars (c &&& 0x0F).toNat = .ok (hexChars.getD (c.toNat % 16) 0) := by
  have hdigit : (c &&& 0x0F).toNat = c.toNat % 16 := by
    change c.toNat &&& (2 ^ 4 - 1) = c.toNat % 16
    exact Nat.and_two_pow_sub_one_eq_mod _ _
  rw [hdigit, load_hexChars (Nat.mod_lt _ (by decide))]

theorem escapeNeeded_eq (hs : 0 ∉ s) (needed : Nat) :
    escapeNeeded (s ++ 0 :: rest) needed = .ok (needed + (escaped s).length + 1) := by
  induction s generalizing needed with
  | nil => rfl
  | cons c s ih =>
    rw [mem_cons, not_or] at hs
    obtain ⟨hc, hs⟩ := hs
    rw [cons_append, escapeNeeded, if_neg (Ne.symm hc), escaped, flatMap_cons,
      length_append, ← escaped]
    by_cases hu : isUnreserved c = true
    · rw [if_pos hu, ih hs, escapedByte_of_unreserved hu]
      simp only [List.length_singleton, Except.ok.injEq]
      omega
    rw [if_neg hu, ih hs, escapedByte_of_reserved hu]
    simp only [length_cons, List.length_nil, Except.ok.injEq]
    omega

theorem escapeInto_eq (hs : 0 ∉ s) (out : List UInt8) (dst : Nat) :
    escapeInto (s ++ 0 :: rest) out dst = Buffer.write out dst (escaped s ++ [0]) := by
  induction s generalizing out dst with
  | nil => rfl
  | cons c s ih =>
    rw [mem_cons, not_or] at hs
    obtain ⟨hc, hs⟩ := hs
    rw [cons_append, escapeInto, if_neg (Ne.symm hc), escaped, flatMap_cons, ← escaped]
    simp only [ih hs]
    by_cases hu : isUnreserved c = true
    · rw [if_pos hu, escapedByte_of_unreserved hu, List.append_assoc, List.singleton_append,
        Buffer.write_cons]
    rw [if_neg hu, escapedByte_of_reserved hu]
    simp only [load_highDigit c, load_lowDigit c, Outcome.ok_bind, cons_append,
      List.nil_append, Buffer.write_cons, Nat.add_assoc]

theorem stores_sceHttpUriEscape (hs : 0 ∉ s) (rest : List UInt8) :
    Stores (sceHttpUriEscape · · · (some (s ++ 0 :: rest))) (escaped s) :=
  stores_of_passes ((escapeNeeded_eq hs 0).trans (by rw [Nat.zero_add]))
    fun out => escapeInto_eq hs out 0

/-! ## The passes of unescaping -/

theorem leadingSequence_cons_of_ne (h : c ≠ '%'.toUInt8) : leadingSequence (c :: s) = none := by
  cases s with
  | nil => rfl
  | cons high s =>
    cases s with
    | nil => rfl
    | cons low s => exact if_neg fun hseq => h hseq.1

/-- Reading the terminator ends the test; past it nothing is read. -/
theorem isValidPercentSequence_eq (hs : 0 ∉ s) :
    isValidPercentSequence (s ++ 0 :: rest) = .ok (leadingSequence s).isSome := by
  cases s with
  | nil => rfl
  | cons c s =>
    by_cases hc : c = '%'.toUInt8
    swap
    · rw [leadingSequence_cons_of_ne hc]
      exact if_pos hc
    subst hc
    cases s with
    | nil => rfl
    | cons high s =>
      simp only [mem_cons, not_or] at hs
      have hhigh : high ≠ 0 := Ne.symm hs.2.1
      cases s with
      | nil => exact if_neg hhigh
      | cons low s =>
        have hlow : low ≠ 0 := fun h => hs.2.2 (h ▸ mem_cons_self)
        refine (if_neg hhigh).trans ((if_neg hlow).trans ?_)
        simp only [leadingSequence, true_and]
        split
        · next h => rw [h.1, h.2]; rfl
        · next h => exact congrArg Except.ok (by simpa using h)

/-- A sequence has three characters. -/
theorem leadingSequence_eq_some {b : UInt8} (h : leadingSequence (c :: s) = some b) :
    ∃ high low s', s = high :: low :: s' ∧ c = '%'.toUInt8 ∧ b = hexByte high low := by
  cases s with
  | nil => cases h
  | cons high s =>
    cases s with
    | nil => cases h
    | cons low s =>
      simp only [leadingSequence] at h
      split at h
      · next hseq =>
        cases h
        exact ⟨high, low, s, rfl, hseq.1, rfl⟩
      · cases h

theorem unescaped_of_none (h : leadingSequence (c :: s) = none) :
    unescaped (c :: s) = c :: unescaped s := by
  rw [unescaped, h]

theorem unescaped_of_some {b : UInt8} (h : leadingSequence (c :: s) = some b) :
    unescaped (c :: s) = b :: unescaped (s.drop 2) := by
  rw [unescaped, h]

theorem unescapeNeeded_eq (hs : 0 ∉ s) {turns : Nat} (hturns : s.length < turns) (needed : Nat) :
    unescapeNeeded turns (s ++ 0 :: rest) needed = .ok (needed + (unescaped s).length + 1) := by
  induction turns generalizing s needed with
  | zero => cases hturns
  | succ turns ih =>
    cases s with
    | nil =>
      rw [unescaped]
      rfl
    | cons c s =>
      have hc : c ≠ 0 := fun h => hs (h ▸ mem_cons_self)
      have hs' : 0 ∉ s := fun h => hs (mem_cons_of_mem _ h)
      rw [length_cons] at hturns
      rw [unescapeNeeded, isValidPercentSequence_eq hs]
      refine (if_neg hc).trans ?_
      cases hseq : leadingSequence (c :: s) with
      | none =>
        rw [unescaped_of_none hseq, length_cons]
        refine (ih hs' (by omega) (needed + 1)).trans (congrArg Except.ok ?_)
        omega
      | some b =>
        obtain ⟨high, low, s, rfl, -, -⟩ := leadingSequence_eq_some hseq
        rw [unescaped_of_some hseq, length_cons]
        have hs'' : 0 ∉ s := fun h => hs' (mem_cons_of_mem _ (mem_cons_of_mem _ h))
        simp only [length_cons] at hturns
        refine (ih hs'' (by omega) (needed + 1)).trans (congrArg Except.ok ?_)
        simp only [List.drop_succ_cons, List.drop_zero]
        omega

theorem unescapeInto_eq (hs : 0 ∉ s) {turns : Nat} (hturns : s.length < turns) (out : List UInt8)
    (dst : Nat) :
    unescapeInto turns (s ++ 0 :: rest) out dst = Buffer.write out dst (unescaped s ++ [0]) := by
  induction turns generalizing s out dst with
  | zero => cases hturns
  | succ turns ih =>
    cases s with
    | nil =>
      rw [unescaped]
      rfl
    | cons c s =>
      have hc : c ≠ 0 := fun h => hs (h ▸ mem_cons_self)
      have hs' : 0 ∉ s := fun h => hs (mem_cons_of_mem _ h)
      rw [length_cons] at hturns
      rw [unescapeInto, isValidPercentSequence_eq hs]
      refine (if_neg hc).trans ?_
      cases hseq : leadingSequence (c :: s) with
      | none =>
        rw [unescaped_of_none hseq]
        refine Eq.trans ?_ (Buffer.write_cons out (unescaped s ++ [0]) dst c).symm
        exact bind_congr fun out => ih hs' (by omega) out (dst + 1)
      | some b =>
        obtain ⟨high, low, s, rfl, -, rfl⟩ := leadingSequence_eq_some hseq
        rw [unescaped_of_some hseq]
        refine Eq.trans ?_ (Buffer.write_cons out (unescaped s ++ [0]) dst (hexByte high low)).symm
        have hs'' : 0 ∉ s := fun h => hs' (mem_cons_of_mem _ (mem_cons_of_mem _ h))
        simp only [length_cons] at hturns
        exact bind_congr fun out => ih hs'' (by omega) out (dst + 1)

theorem stores_sceHttpUriUnescape (hs : 0 ∉ s) (rest : List UInt8) :
    Stores (sceHttpUriUnescape · · · (some (s ++ 0 :: rest))) (unescaped s) := by
  have hturns : s.length < (s ++ 0 :: rest).length + 1 := by
    rw [length_append]
    omega
  exact stores_of_passes ((unescapeNeeded_eq hs hturns 0).trans (by rw [Nat.zero_add]))
    fun out => unescapeInto_eq hs hturns out 0

/-! ## The round trip -/

theorem percent_not_unreserved : ¬isUnreserved '%'.toUInt8 = true := by decide

theorem hexDigit (n : Fin 16) :
    isHex (hexChars.getD n 0) = true ∧ hexToInt (hexChars.getD n 0) = n ∧ hexChars.getD n 0 ≠ 0 := by
  revert n
  decide

/-- The two digits of a byte give the byte. -/
theorem hexByte_digits (c : UInt8) :
    hexByte (hexChars.getD (c.toNat / 16) 0) (hexChars.getD (c.toNat % 16) 0) = c := by
  have hc := c.toNat_lt
  have hhigh := (hexDigit ⟨c.toNat / 16, by omega⟩).2.1
  have hlow := (hexDigit ⟨c.toNat % 16, Nat.mod_lt _ (by decide)⟩).2.1
  have hsum : (c.toNat / 16) <<< 4 ||| c.toNat % 16 = c.toNat := by
    rw [← Nat.shiftLeft_add_eq_or_of_lt (show c.toNat % 16 < 2 ^ 4 by omega), Nat.shiftLeft_eq]
    omega
  simp only [hexByte] at *
  rw [hhigh, hlow, hsum, UInt8.ofNat_toNat]

theorem escapedByte_nonzero (hc : c ≠ 0) : 0 ∉ escapedByte c := by
  have hlt := c.toNat_lt
  by_cases hu : isUnreserved c = true
  · rw [escapedByte_of_unreserved hu]
    simpa using hc.symm
  rw [escapedByte_of_reserved hu]
  simp only [mem_cons, List.not_mem_nil, or_false, not_or]
  refine ⟨by decide, ?_, ?_⟩
  · exact (hexDigit ⟨c.toNat / 16, by omega⟩).2.2.symm
  · exact (hexDigit ⟨c.toNat % 16, Nat.mod_lt _ (by decide)⟩).2.2.symm

theorem escaped_nonzero (hs : 0 ∉ s) : 0 ∉ escaped s := by
  intro h
  obtain ⟨c, hc, h⟩ := List.mem_flatMap.1 h
  exact escapedByte_nonzero (ne_of_mem_of_not_mem hc hs) h

theorem unescaped_escapedByte (c : UInt8) (s : List UInt8) :
    unescaped (escapedByte c ++ s) = c :: unescaped s := by
  have hlt := c.toNat_lt
  by_cases hu : isUnreserved c = true
  · have hc : c ≠ '%'.toUInt8 := fun h => percent_not_unreserved (h ▸ hu)
    rw [escapedByte_of_unreserved hu, List.singleton_append,
      unescaped_of_none (leadingSequence_cons_of_ne hc)]
  rw [escapedByte_of_reserved hu]
  have hhigh := (hexDigit ⟨c.toNat / 16, by omega⟩).1
  have hlow := (hexDigit ⟨c.toNat % 16, Nat.mod_lt _ (by decide)⟩).1
  have hseq : leadingSequence ('%'.toUInt8 :: hexChars.getD (c.toNat / 16) 0 ::
      hexChars.getD (c.toNat % 16) 0 :: s) = some c := by
    refine (if_pos ⟨rfl, hhigh, hlow⟩).trans ?_
    rw [hexByte_digits]
  exact unescaped_of_some hseq

theorem unescaped_escaped (s : List UInt8) : unescaped (escaped s) = s := by
  induction s with
  | nil => rw [escaped, List.flatMap_nil, unescaped]
  | cons c s ih =>
    rw [escaped, flatMap_cons, ← escaped, unescaped_escapedByte, ih]

/-- Escaping and unescaping store what they report, whatever lies behind the terminator, and
unescaping what escaping stored gives the string back. -/
theorem uriCoding_roundTrips (s : List UInt8) (hs : 0 ∉ s) :
    ∃ e u, 0 ∉ e ∧ ∀ rest : List UInt8,
      Stores (sceHttpUriEscape · · · (some (s ++ 0 :: rest))) e ∧
      Stores (sceHttpUriUnescape · · · (some (s ++ 0 :: rest))) u ∧
      Stores (sceHttpUriUnescape · · · (some (e ++ 0 :: rest))) s := by
  refine ⟨escaped s, unescaped s, escaped_nonzero hs, fun rest => ⟨?_, ?_, ?_⟩⟩
  · exact stores_sceHttpUriEscape hs rest
  · exact stores_sceHttpUriUnescape hs rest
  · have h := stores_sceHttpUriUnescape (escaped_nonzero hs) rest
    rwa [unescaped_escaped] at h

/-- A string that ends in an incomplete sequence. -/
def incompleteSequence : List UInt8 := "a%4".toList.map Char.toUInt8

theorem uriCoding_roundTrips_incomplete :
    ∃ e u, 0 ∉ e ∧ ∀ rest : List UInt8,
      Stores (sceHttpUriEscape · · · (some (incompleteSequence ++ 0 :: rest))) e ∧
      Stores (sceHttpUriUnescape · · · (some (incompleteSequence ++ 0 :: rest))) u ∧
      Stores (sceHttpUriUnescape · · · (some (e ++ 0 :: rest))) incompleteSequence :=
  uriCoding_roundTrips incompleteSequence (by decide)

end Http
