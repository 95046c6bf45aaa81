import ComputerOS.Net.Bounds
import Mathlib.Data.List.GetD
import Mathlib.Data.List.TakeWhile

/-!
Names and answers of the domain name system. A name on the wire is a sequence of labels, each after
its length, and a zero byte; a pointer may stand in place of the rest. The answers are walked record
by record, with the length of the response checked before every read.
-/
namespace ComputerOS.Net

open Reading

def dot : UInt8 := 46

/-- The loop of `dns_encode_name`: what is left of the name, and what is written. -/
def encodeLoop (max : ℕ) (p out : List UInt8) : Option (List UInt8) :=
  if p = [] then
    if max < u32 (out.length + 1) then none else some (out ++ [0])
  else
    let label := p.takeWhile (· ≠ dot)
    let seglen := u32 label.length
    if seglen = 0 ∨ 63 < seglen then none
    else if max ≤ u32 (out.length + 1 + seglen) then none
    else encodeLoop max ((p.dropWhile (· ≠ dot)).drop 1) (out ++ UInt8.ofNat seglen :: label.take seglen)
termination_by p.length
decreasing_by
  rename_i hseglen _
  have hlen := congrArg List.length (List.takeWhile_append_dropWhile (p := (· ≠ dot)) (l := p))
  have hpos : (p.takeWhile (· ≠ dot)).length ≠ 0 := fun h => hseglen (Or.inl (congrArg u32 h))
  rw [List.length_append] at hlen
  rw [List.length_drop]
  omega

/-- `dns_encode_name`: the bytes written, unless 0 is returned. -/
def dnsEncodeName (host : List UInt8) (max : ℕ) : Option (List UInt8) := encodeLoop max host []

def dnsSkipName : ℕ → ℕ → ℕ → Reading (Option ℕ)
  | 0, _, _ => pure none
  | n + 1, off, len =>
      if off < len then do
        let b ← byte off
        if b = 0 then pure (some (u32 (off + 1)))
        else if b &&& 0xC0 = 0xC0 then pure (some (u32 (off + 2)))
        else dnsSkipName n (u32 (off + 1 + b.toNat)) len
      else pure (some off)

/-- The loop over the answers in `dns_resolve`, with `k` answers left; `some ip` is the return of 1.
-/
def answerLoop (n len : ℕ) : ℕ → ℕ → Reading (Option (Option ℕ))
  | 0, _ => pure (some none)
  | k + 1, off =>
      if len < u32 (off + 10) then pure (some none)
      else do
        match ← dnsSkipName n off len with
        | none => pure none
        | some off =>
            if len < u32 (off + 10) then pure (some none)
            else do
              let type ← field16 off
              let rdlen ← field16 (off + 8)
              if type = 1 ∧ rdlen = 4 ∧ u32 (u32 (off + 10) + 4) ≤ len then do
                let ip ← field32 (u32 (off + 10))
                pure (some (some ip))
              else answerLoop n len k (u32 (u32 (off + 10) + rdlen))

def dnsAnswer (n len : ℕ) : Reading (Option (Option ℕ)) := do
  if len < 12 then pure (some none)
  else
    let answers ← field16 6
    if answers = 0 then pure (some none)
    else
      match ← dnsSkipName n 12 len with
      | none => pure none
      | some off => answerLoop n len answers (u32 (off + 4))

/-- The labels with dots between them, and perhaps one at the end. -/
def spell (final : Bool) : List (List UInt8) → List UInt8
  | [] => []
  | [l] => l ++ if final then [dot] else []
  | l :: l' :: ls => l ++ dot :: spell final (l' :: ls)

/-- Read label by label, the bytes are these labels. -/
inductive Decodes : List UInt8 → List (List UInt8) → Prop
  | root : Decodes [0] []
  | label {b : UInt8} {l rest : List UInt8} {ls : List (List UInt8)} (hb : b ≠ 0) (hlen : b.toNat = l.length)
      (hrest : Decodes rest ls) : Decodes (b :: (l ++ rest)) (l :: ls)

def GoodLabel (l : List UInt8) : Prop := 1 ≤ l.length ∧ l.length ≤ 63 ∧ dot ∉ l

/-- What the labels are encoded as. -/
def wire (ls : List (List UInt8)) : List UInt8 := (ls.flatMap fun l => UInt8.ofNat l.length :: l) ++ [0]

variable {buf : ℕ → UInt8} {n len max off e e' k ip : ℕ} {l rest out p : List UInt8} {ls : List (List UInt8)}

theorem wire_cons (l : List UInt8) (ls : List (List UInt8)) : wire (l :: ls) = UInt8.ofNat
    l.length :: (l ++ wire ls) := by
  rw [wire, List.flatMap_cons, List.append_assoc]
  rfl

theorem label_byte (h : GoodLabel l) : (UInt8.ofNat l.length).toNat = l.length := by
  rw [UInt8.toNat_ofNat']
  exact Nat.mod_eq_of_lt (by have := h.2.1; omega)

theorem label_ne_zero (h : GoodLabel l) : UInt8.ofNat l.length ≠ 0 := by
  intro hzero
  have hlen := label_byte h
  rw [hzero] at hlen
  have := h.1
  change 0 = _ at hlen
  omega

theorem decodes_wire (h : ∀ l ∈ ls, GoodLabel l) : Decodes (wire ls) ls := by
  induction ls with
  | nil => exact .root
  | cons l ls ih =>
    rw [List.forall_mem_cons] at h
    rw [wire_cons]
    exact .label (label_ne_zero h.1) (label_byte h.1) (ih h.2)

/-- One round takes the first label off the name. -/
theorem encodeLoop_label (h : GoodLabel l) (hrest : rest = [] ∨ rest.head? = some dot) (hout : out.length < 2 ^ 31) :
    encodeLoop max (l ++ rest) out =
      if max ≤ out.length + 1 + l.length then none
      else encodeLoop max (rest.drop 1) (out ++ UInt8.ofNat l.length :: l) := by
  obtain ⟨hpos, hle, hdot⟩ := h
  have hall : ∀ x ∈ l, decide (x ≠ dot) = true := fun x hx => decide_eq_true fun h => hdot (h ▸ hx)
  have hstop : rest.takeWhile (· ≠ dot) = [] ∧ rest.dropWhile (· ≠ dot) = rest := by
    rcases hrest with rfl | hhead
    · exact ⟨rfl, rfl⟩
    · cases rest with
      | nil => cases hhead
      | cons x rest =>
        obtain rfl : x = dot := Option.some.inj hhead
        exact ⟨List.takeWhile_cons_of_neg (by simp), List.dropWhile_cons_of_neg (by simp)⟩
  have htake : (l ++ rest).takeWhile (· ≠ dot) = l := by
    rw [List.takeWhile_append_of_pos hall, hstop.1, List.append_nil]
  have hdrop : (l ++ rest).dropWhile (· ≠ dot) = rest := by
    rw [List.dropWhile_append_of_pos hall, hstop.2]
  have hne : l ++ rest ≠ [] := by
    intro hnil
    rw [(List.append_eq_nil_iff.1 hnil).1] at hpos
    exact absurd hpos (by decide)
  have hlen : u32 l.length = l.length := Nat.mod_eq_of_lt (by omega)
  have hsum : u32 (out.length + 1 + l.length) = out.length + 1 + l.length := Nat.mod_eq_of_lt (by omega)
  rw [encodeLoop, if_neg hne]
  dsimp only
  rw [htake, hdrop, hlen, hsum, if_neg (by omega), List.take_length]

theorem length_wire_cons (l : List UInt8) (ls : List (List UInt8)) :
    (wire (l :: ls)).length = 1 + l.length + (wire ls).length := by
  rw [wire_cons, List.length_cons, List.length_append]
  omega

theorem length_wire_pos (ls : List (List UInt8)) : 0 < (wire ls).length := by
  rw [wire, List.length_append, List.length_singleton]
  omega

/-- What the encoder writes for labels of 1 to 63 bytes, if there is room for it. -/
theorem encodeLoop_spell (final : Bool) (hmax : max ≤ 2 ^ 31) (h : ∀ l ∈ ls, GoodLabel l) (hout : out.length < 2 ^ 31) :
    encodeLoop max (spell final ls) out =
      if out.length + (wire ls).length ≤ max then some (out ++ wire ls) else none := by
  induction ls generalizing out with
  | nil =>
    have hlen : u32 (out.length + 1) = out.length + 1 := Nat.mod_eq_of_lt (by omega)
    rw [spell, encodeLoop, if_pos rfl, hlen]
    change _ = if out.length + 1 ≤ max then some (out ++ [0]) else none
    by_cases hroom : out.length + 1 ≤ max
    · rw [if_neg (by omega), if_pos hroom]
    · rw [if_pos (by omega), if_neg hroom]
  | cons l ls ih =>
    rw [List.forall_mem_cons] at h
    have hsize := length_wire_cons l ls
    have hpos := length_wire_pos ls
    -- the name is the first label and what follows its dot
    obtain ⟨rest, hspell, hhead, hdrop⟩ : ∃ rest, spell final (l :: ls) = l ++ rest ∧
        (rest = [] ∨ rest.head? = some dot) ∧ rest.drop 1 = spell final ls := by
      cases ls with
      | nil =>
        cases final with
        | true => exact ⟨[dot], rfl, Or.inr rfl, rfl⟩
        | false => exact ⟨[], rfl, Or.inl rfl, rfl⟩
      | cons l' ls => exact ⟨dot :: spell final (l' :: ls), rfl, Or.inr rfl, rfl⟩
    rw [hspell, encodeLoop_label h.1 hhead hout, hdrop]
    by_cases hfull : max ≤ out.length + 1 + l.length
    · rw [if_pos hfull, if_neg (by omega)]
    · have hnext : (out ++ UInt8.ofNat l.length :: l).length = out.length + (1 + l.length) := by
        rw [List.length_append, List.length_cons]
        omega
      have happend : out ++ UInt8.ofNat l.length :: l ++ wire ls = out ++ wire (l :: ls) := by
        rw [wire_cons, List.append_assoc]
        rfl
      rw [if_neg hfull, ih h.2 (by omega), hnext, happend, hsize, Nat.add_assoc, Nat.add_assoc]

theorem dnsEncodeName_spell (final : Bool) (hmax : max ≤ 2 ^ 31) (h : ∀ l ∈ ls, GoodLabel l) :
    dnsEncodeName (spell final ls) max = if (wire ls).length ≤ max then some (wire ls) else none := by
  have hspell := encodeLoop_spell final hmax h (show ([] : List UInt8).length < 2 ^ 31 by decide)
  rwa [List.length_nil, Nat.zero_add, List.nil_append] at hspell

/-- A name that is accepted is made of labels of 1 to 63 bytes; a length of 2³² bytes or more would
wrap. -/
theorem accepted_spells (hp : p.length < 2 ^ 32) (hrun : encodeLoop max p out = some rest) :
    ∃ ls final, (∀ l ∈ ls, GoodLabel l) ∧ p = spell final ls := by
  induction hn : p.length using Nat.strong_induction_on generalizing p out with
  | _ n ih =>
    by_cases hnil : p = []
    · exact ⟨[], false, List.forall_mem_nil _, hnil⟩
    · rw [encodeLoop, if_neg hnil] at hrun
      dsimp only at hrun
      split_ifs at hrun with hseglen hfull
      have hsplit := List.takeWhile_append_dropWhile (p := (· ≠ dot)) (l := p)
      have hlen := congrArg List.length hsplit
      rw [List.length_append] at hlen
      have hlabel : u32 (p.takeWhile (· ≠ dot)).length = (p.takeWhile (· ≠ dot)).length := Nat.mod_eq_of_lt (by omega)
      rw [hlabel] at hseglen
      have hgood : GoodLabel (p.takeWhile (· ≠ dot)) :=
        ⟨by omega, by omega, fun h => by simpa using List.mem_takeWhile_imp h⟩
      have hhead : ∀ x tail, p.dropWhile (· ≠ dot) = x :: tail → x = dot := by
        intro x tail hdrop
        have h := List.head_dropWhile_not (· ≠ dot) (l := p) (by rw [hdrop]; exact List.cons_ne_nil _ _)
        simp only [hdrop, List.head_cons] at h
        simpa using h
      generalize p.takeWhile (· ≠ dot) = l at hsplit hlen hgood hrun hseglen
      cases hdrop : p.dropWhile (· ≠ dot) with
      | nil =>
        rw [hdrop, List.append_nil] at hsplit
        exact ⟨[l], false, List.forall_mem_singleton.2 hgood, by rw [spell, if_neg (by decide), List.append_nil, hsplit]⟩
      | cons x tail =>
        obtain rfl := hhead x tail hdrop
        rw [hdrop] at hsplit hlen hrun
        rw [List.length_cons] at hlen
        rw [List.drop_one, List.tail_cons] at hrun
        obtain ⟨ls, final, hls, htail⟩ := ih tail.length (by omega) (by omega) hrun rfl
        cases ls with
        | nil =>
          rw [spell] at htail
          rw [htail] at hsplit
          exact ⟨[l], true, List.forall_mem_singleton.2 hgood, hsplit.symm⟩
        | cons l' ls => exact ⟨l :: l' :: ls, final, List.forall_mem_cons.2 ⟨hgood, hls⟩, by rw [← hsplit, htail, spell]⟩

def Stands (buf : ℕ → UInt8) (off : ℕ) (w : List UInt8) : Prop := ∀ (i : ℕ) (h : i < w.length), buf (off + i) = w[i]

theorem Stands.right {w w' : List UInt8} (h : Stands buf off (w ++ w')) : Stands buf (off + w.length) w' := by
  intro i hi
  have hat := h (w.length + i) (by rw [List.length_append]; omega)
  rw [List.getElem_append_right (by omega)] at hat
  simp only [Nat.add_sub_cancel_left] at hat
  rwa [← Nat.add_assoc] at hat

/-- A length byte is no pointer. -/
theorem label_not_pointer {b : UInt8} (h : b.toNat < 192) : b &&& 0xC0 ≠ 0xC0 := by
  intro hand
  have hle := Nat.and_le_left (n := b.toNat) (m := 192)
  rw [← UInt8.toNat_inj, UInt8.toNat_and] at hand
  change b.toNat &&& 192 = 192 at hand
  omega

/-- The name ends after as many bytes as it was encoded in. -/
theorem skipName_wire (h : ∀ l ∈ ls, GoodLabel l) (hbuf : Stands buf off (wire ls))
    (hlen : off + (wire ls).length ≤ len)
    (hlt : off + (wire ls).length < 2 ^ 32) (hn : (wire ls).length ≤ n) :
    (dnsSkipName n off len).value buf = some (off + (wire ls).length) := by
  induction ls generalizing off n with
  | nil =>
    obtain ⟨n, rfl⟩ : ∃ m, n = m + 1 := ⟨n - 1, by have : (wire []).length = 1 := rfl; omega⟩
    have hone : (wire []).length = 1 := rfl
    rw [hone] at hlen hlt ⊢
    have hzero : buf off = 0 := hbuf 0 (by decide)
    rw [dnsSkipName, if_pos (by omega), value_bind, value_byte, if_pos hzero, value_pure]
    exact congrArg some (Nat.mod_eq_of_lt hlt)
  | cons l ls ih =>
    rw [List.forall_mem_cons] at h
    have hsize := length_wire_cons l ls
    have hpos := length_wire_pos ls
    obtain ⟨n, rfl⟩ : ∃ m, n = m + 1 := ⟨n - 1, by omega⟩
    have hrest : Stands buf (off + 1 + l.length) (wire ls) := by
      rw [wire_cons, ← List.singleton_append] at hbuf
      exact hbuf.right.right
    have hb : buf off = UInt8.ofNat l.length := by
      have hat := hbuf 0 (by omega)
      simp only [wire_cons, List.getElem_cons_zero] at hat
      exact hat
    have hnext : u32 (off + 1 + (buf off).toNat) = off + 1 + l.length := by
      rw [hb, label_byte h.1]
      exact Nat.mod_eq_of_lt (by omega)
    have hpointer : buf off &&& 0xC0 ≠ 0xC0 := by
      refine label_not_pointer ?_
      rw [hb, label_byte h.1]
      have := h.1.2.1
      omega
    rw [dnsSkipName, if_pos (by omega), value_bind, value_byte, if_neg (hb ▸ label_ne_zero h.1),
      if_neg hpointer, hnext, ih h.2 hrest (by omega) (by omega) (by omega), hsize]
    exact congrArg some (by omega)

/-- A name stands at the offset, and the second offset is behind it. -/
inductive NameAt (buf : ℕ → UInt8) (len : ℕ) : ℕ → ℕ → Prop
  | root {off : ℕ} (h : off < len) (hb : buf off = 0) : NameAt buf len off (off + 1)
  | pointer {off : ℕ} (h : off + 1 < len) (hb : 192 ≤ (buf off).toNat) : NameAt buf len off (off + 2)
  | label {off e : ℕ} (h : off < len) (hb : buf off ≠ 0) (hlen : (buf off).toNat < 192)
      (hrest : NameAt buf len (off + 1 + (buf off).toNat) e) : NameAt buf len off e

/-- Among `k` records from the offset on there is a complete one of type A with four bytes of data,
and the first such one has this address. -/
inductive Answered (buf : ℕ → UInt8) (len : ℕ) : ℕ → ℕ → ℕ → Prop
  | here {k off e : ℕ} (hname : NameAt buf len off e) (hfits : e + 14 ≤ len) (htype : be16 buf e = 1)
      (hrdlen : be16 buf (e + 8) = 4) : Answered buf len (k + 1) off (be32 buf (e + 10))
  | next {k off e ip : ℕ} (hname : NameAt buf len off e) (hfits : e + 10 ≤ len)
      (hother : ¬ (be16 buf e = 1 ∧ be16 buf (e + 8) = 4)) (hrest : Answered buf len k (e + 10 + be16 buf (e + 8)) ip) :
      Answered buf len (k + 1) off ip

/-- The response answers with this address: a header, one question, and as many records as the
header says. -/
def Resolves (buf : ℕ → UInt8) (len ip : ℕ) : Prop :=
  12 ≤ len ∧ ∃ e, NameAt buf len 12 e ∧ Answered buf len (be16 buf 6) (e + 4) ip

theorem pointer_iff (b : UInt8) : b &&& 0xC0 = 0xC0 ↔ 192 ≤ b.toNat := by
  constructor
  · intro h
    by_contra hlt
    exact label_not_pointer (Nat.not_le.1 hlt) h
  · intro h
    have hall : ∀ n < 256, 192 ≤ n → n &&& 192 = 192 := by decide +kernel
    rw [← UInt8.toNat_inj, UInt8.toNat_and]
    exact hall b.toNat b.toNat_lt h

theorem NameAt.unique (h : NameAt buf len off e) (h' : NameAt buf len off e') : e = e' := by
  induction h with
  | root _ hb =>
    cases h' with
    | root => rfl
    | pointer _ hb' =>
      rw [hb] at hb'
      exact absurd hb' (by decide)
    | label _ hb' => exact (hb' hb).elim
  | pointer _ hb =>
    cases h' with
    | root _ hb' =>
      rw [hb'] at hb
      exact absurd hb (by decide)
    | pointer => rfl
    | label _ _ hlen => omega
  | label _ hb hlen _ ih =>
    cases h' with
    | root _ hb' => exact (hb hb').elim
    | pointer _ hb' => omega
    | label _ _ _ hrest => exact ih hrest

theorem NameAt.lt (h : NameAt buf len off e) : off < len := by
  cases h with
  | root h => exact h
  | pointer h => omega
  | label h => exact h

theorem NameAt.lt_end (h : NameAt buf len off e) : off < e := by
  induction h with
  | root => exact Nat.lt_succ_self _
  | pointer => omega
  | label _ _ _ _ ih => omega

theorem Answered.room (h : Answered buf len k off ip) : off + 10 < len := by
  cases h with
  | here hname => have := hname.lt_end; omega
  | next hname => have := hname.lt_end; omega

theorem not_answered_zero : ¬ Answered buf len 0 off ip := nofun

/-- What skipping a name comes to: the offset behind the name, or an offset behind the data when
there is no name. -/
structure Skipped (buf : ℕ → UInt8) (len off e : ℕ) : Prop where
  name : NameAt buf len off e ∨ len ≤ e ∧ ∀ e', ¬ NameAt buf len off e'
  le : e ≤ off ∨ e ≤ len + 256

theorem skipName_spec (buf : ℕ → UInt8) (hlen : len ≤ 1500) (hoff : off < 2 ^ 31) (hn : len - off < n) :
    ∃ e, (dnsSkipName n off len).value buf = some e ∧ Skipped buf len off e ∧
    Within len (dnsSkipName n off len) buf := by
  induction n generalizing off with
  | zero => omega
  | succ n ih =>
    have hb := (buf off).toNat_lt
    rw [dnsSkipName]
    by_cases hin : off < len
    · rw [if_pos hin, value_bind, value_byte, within_bind, within_byte, value_byte]
      by_cases hzero : buf off = 0
      · have hone : u32 (off + 1) = off + 1 := Nat.mod_eq_of_lt (by omega)
        rw [if_pos hzero, hone]
        exact ⟨off + 1, rfl, ⟨Or.inl (.root hin hzero), by omega⟩, hin, within_pure _⟩
      · by_cases hpointer : buf off &&& 0xC0 = 0xC0
        · have htwo : u32 (off + 2) = off + 2 := Nat.mod_eq_of_lt (by omega)
          rw [if_neg hzero, if_pos hpointer, htwo]
          rw [pointer_iff] at hpointer
          refine ⟨off + 2, rfl, ⟨?_, by omega⟩, hin, within_pure _⟩
          by_cases hfits : off + 1 < len
          · exact Or.inl (.pointer hfits hpointer)
          · refine Or.inr ⟨by omega, fun e' hname => ?_⟩
            cases hname with
            | root _ hb' => exact hzero hb'
            | pointer h => exact hfits h
            | label _ _ hlt => omega
        · have hnext : u32 (off + 1 + (buf off).toNat) = off + 1 + (buf off).toNat := Nat.mod_eq_of_lt (by omega)
          rw [if_neg hzero, if_neg hpointer, hnext]
          rw [pointer_iff, Nat.not_le] at hpointer
          obtain ⟨e, hval, hskip, hwithin⟩ := ih (show off + 1 + (buf off).toNat < 2 ^ 31 by omega) (by omega)
          refine ⟨e, hval, ⟨?_, by have := hskip.le; omega⟩, hin, hwithin⟩
          rcases hskip.name with hname | ⟨hend, hnone⟩
          · exact Or.inl (.label hin hzero hpointer hname)
          · refine Or.inr ⟨hend, fun e' hname => ?_⟩
            cases hname with
            | root _ hb' => exact hzero hb'
            | pointer _ hb' => omega
            | label _ _ _ hrest => exact hnone e' hrest
    · rw [if_neg hin]
      exact ⟨off, rfl, ⟨Or.inr ⟨by omega, fun e' hname => hin hname.lt⟩, by omega⟩, within_pure _⟩

/-- The walk over `k` records finds the first address, and reads inside the data. -/
theorem answerLoop_spec (buf : ℕ → UInt8) (k : ℕ) (hlen : len ≤ 1500) (hoff : off < 2 ^ 31) (hn : 1500 < n) :
    ∃ r, (answerLoop n len k off).value buf = some r ∧ (∀ ip, r = some ip ↔ Answered buf len k off ip) ∧
      Within len (answerLoop n len k off) buf := by
  induction k generalizing off with
  | zero => exact ⟨none, rfl, fun ip => ⟨nofun, nofun⟩, within_pure _⟩
  | succ k ih =>
    have hten : u32 (off + 10) = off + 10 := Nat.mod_eq_of_lt (by omega)
    have stop : (∀ e, NameAt buf len off e → len < e + 10) → ∀ ip, (none : Option ℕ) = some ip ↔
      Answered buf len (k + 1) off ip := by
      intro hno ip
      refine ⟨nofun, fun h => ?_⟩
      cases h with
      | here hname hfits => exact absurd (hno _ hname) (by omega)
      | next hname hfits => exact absurd (hno _ hname) (by omega)
    rw [answerLoop, hten]
    by_cases hroom : len < off + 10
    · rw [if_pos hroom]
      exact ⟨none, rfl, stop fun e hname => by have := hname.lt_end; omega, within_pure _⟩
    · rw [if_neg hroom]
      obtain ⟨e, hval, hskip, hread⟩ := skipName_spec buf hlen hoff (show len - off < n by omega)
      have hle := hskip.le
      have hten' : u32 (e + 10) = e + 10 := Nat.mod_eq_of_lt (by omega)
      rw [value_bind, within_bind, hval]
      dsimp only
      rw [hten']
      by_cases hroom' : len < e + 10
      · rw [if_pos hroom']
        refine ⟨none, rfl, stop fun e' hname => ?_, hread, within_pure _⟩
        rcases hskip.name with hthere | ⟨-, hnone⟩
        · rwa [hname.unique hthere]
        · exact (hnone e' hname).elim
      · rw [if_neg hroom']
        have hname : NameAt buf len off e := by
          rcases hskip.name with hthere | ⟨hend, -⟩
          · exact hthere
          · omega
        have hrdlen : be16 buf (e + 8) < 65536 := be16_lt buf (e + 8)
        have hdata : u32 (e + 10 + 4) = e + 10 + 4 := Nat.mod_eq_of_lt (by omega)
        have hnext : u32 (e + 10 + be16 buf (e + 8)) = e + 10 + be16 buf (e + 8) := Nat.mod_eq_of_lt (by omega)
        simp only [value_bind, within_bind, value_field16, within_field16, hdata, hnext]
        by_cases htake : be16 buf e = 1 ∧ be16 buf (e + 8) = 4 ∧ e + 10 + 4 ≤ len
        · rw [if_pos htake]
          obtain ⟨htype, hfour, hfits⟩ := htake
          refine ⟨some (be32 buf (e + 10)), rfl, fun ip => ?_, hread, by omega, by omega, ?_⟩
          · constructor
            · rintro ⟨⟩
              exact .here hname (by omega) htype hfour
            · intro h
              cases h with
              | here hname' =>
                obtain rfl := hname.unique hname'
                rfl
              | next hname' _ hother =>
                obtain rfl := hname.unique hname'
                exact (hother ⟨htype, hfour⟩).elim
          · simp only [within_bind, within_field32, within_pure, and_true]
            omega
        · rw [if_neg htake]
          obtain ⟨r, hloop, hfirst, hrest⟩ := ih (show e + 10 + be16 buf (e + 8) < 2 ^ 31 by omega)
          refine ⟨r, hloop, fun ip => ?_, hread, by omega, by omega, hrest⟩
          rw [hfirst]
          constructor
          · intro h
            by_cases hcut : be16 buf e = 1 ∧ be16 buf (e + 8) = 4
            · -- a record that ends behind the data: no name can follow
              have := h.room
              omega
            · exact .next hname (by omega) hcut h
          · intro h
            cases h with
            | here hname' hfits htype hfour =>
              obtain rfl := hname.unique hname'
              exact (htake ⟨htype, hfour, by omega⟩).elim
            | next hname' _ _ h =>
              obtain rfl := hname.unique hname'
              exact h

theorem dnsAnswer_spec (buf : ℕ → UInt8) (hlen : len ≤ 1500) (hn : 1500 < n) : ∃ r,
    (dnsAnswer n len).value buf = some r ∧ (∀ ip, r = some ip ↔ Resolves buf len ip) ∧
    Within len (dnsAnswer n len) buf := by
  unfold dnsAnswer
  by_cases hshort : len < 12
  · rw [if_pos hshort]
    exact ⟨none, rfl, fun ip => ⟨nofun, fun h => absurd h.1 (by omega)⟩, within_pure _⟩
  · rw [if_neg hshort]
    simp only [value_bind, within_bind, value_field16, within_field16]
    by_cases hnone : be16 buf 6 = 0
    · rw [if_pos hnone]
      refine ⟨none, rfl, fun ip => ⟨nofun, fun h => ?_⟩, by omega, within_pure _⟩
      obtain ⟨-, e, -, hanswered⟩ := h
      rw [hnone] at hanswered
      exact (not_answered_zero hanswered).elim
    · rw [if_neg hnone]
      obtain ⟨e, hval, hskip, hread⟩ := skipName_spec buf hlen (show 12 < 2 ^ 31 by decide) (show len - 12 < n by omega)
      have hle := hskip.le
      have hnext : u32 (e + 4) = e + 4 := Nat.mod_eq_of_lt (by omega)
      rw [value_bind, within_bind, hval]
      dsimp only
      rw [hnext]
      obtain ⟨r, hloop, hfirst, hrest⟩ := answerLoop_spec buf (be16 buf 6) hlen (show e + 4 < 2 ^ 31 by omega) hn
      refine ⟨r, hloop, fun ip => ?_, by omega, hread, hrest⟩
      rw [hfirst]
      constructor
      · intro h
        rcases hskip.name with hname | ⟨hend, -⟩
        · exact ⟨by omega, e, hname, h⟩
        · -- without a question there is no room for a record
          have := h.room
          omega
      · rintro ⟨-, e', hname, h⟩
        rcases hskip.name with hthere | ⟨-, hnone⟩
        · rwa [hname.unique hthere] at h
        · exact (hnone e' hname).elim

/-- The buffer that starts with these bytes. -/
def bytesAt (bs : List UInt8) : ℕ → UInt8 := fun i => bs.getD i 0

theorem stands_bytesAt (w rest : List UInt8) : Stands (bytesAt (w ++ rest)) 0 w := by
  intro i hi
  rw [Nat.zero_add, bytesAt, List.getD_append _ _ _ _ hi, List.getD_eq_getElem _ _ hi]

/-- A name that is accepted is one of labels with 1 to 63 bytes; such a name is accepted when its
encoding fits, and what is encoded decodes to its labels and is skipped as a whole; and a response
answers with the address of its first complete record of type A, and is read inside its length. -/
theorem dns_names_and_answers :
    (∀ (host : List UInt8) (max : ℕ) (out : List UInt8), host.length < 2 ^ 32 → dnsEncodeName host max = some out →
      ∃ ls final, (∀ l ∈ ls, GoodLabel l) ∧ host = spell final ls) ∧
    (∀ (ls : List (List UInt8)) (final : Bool) (max : ℕ), (∀ l ∈ ls, GoodLabel l) → max ≤ 2 ^ 31 →
      (dnsEncodeName (spell final ls) max = some (wire ls) ↔ (wire ls).length ≤ max)) ∧
    (∀ (ls : List (List UInt8)) (final : Bool) (max : ℕ) (out : List UInt8), (∀ l ∈ ls, GoodLabel l) → max ≤ 2 ^ 31 →
      dnsEncodeName (spell final ls) max = some out → Decodes out ls ∧ ∀ (rest : List UInt8) (n : ℕ), out.length ≤ n →
        (dnsSkipName n 0 (out ++ rest).length).value (bytesAt (out ++ rest)) = some out.length) ∧
    ∀ (buf : ℕ → UInt8) (len : ℕ), len ≤ 1500 → ∀ n, 1500 < n → ∃ r, (dnsAnswer n len).value buf = some r ∧
      (∀ ip, r = some ip ↔ Resolves buf len ip) ∧ Within len (dnsAnswer n len) buf := by
  refine ⟨fun host max out hlen hrun => accepted_spells hlen hrun, fun ls final max h hmax => ?_,
    fun ls final max out h hmax hrun => ?_, fun buf len hlen n hn => dnsAnswer_spec buf hlen hn⟩
  · rw [dnsEncodeName_spell final hmax h, ite_eq_left_iff]
    exact ⟨fun hfit => by_contra fun hlong => (by cases hfit hlong), fun hfit hlong => absurd hfit hlong⟩
  · rw [dnsEncodeName_spell final hmax h] at hrun
    split_ifs at hrun with hfit
    obtain rfl := Option.some.inj hrun
    refine ⟨decodes_wire h, fun rest n hn => ?_⟩
    have hlen : 0 + (wire ls).length ≤ (wire ls ++ rest).length := by
      rw [List.length_append]
      omega
    have hskip := skipName_wire h (stands_bytesAt (wire ls) rest) hlen (by omega) hn
    rwa [Nat.zero_add] at hskip

/-- A response with one answer: 10.0.2.2. -/
def oneAnswer : List UInt8 := [0xAB, 0xCD, 0x81, 0x80, 0, 1, 0, 1, 0, 0, 0, 0, 0, 0, 1, 0, 1, 0xC0,
  0x0C, 0, 1, 0, 1, 0, 0, 0, 60, 0, 4, 10, 0, 2, 2]

/-- The name "go.os." with its final dot, and the response. -/
theorem oneAnswer_resolves : dnsEncodeName [103, 111, 46, 111, 115, 46] 256 = some
    [2, 103, 111, 2, 111, 115, 0] ∧ Decodes [2, 103, 111, 2, 111, 115, 0] [[103, 111], [111, 115]] ∧
    (dnsAnswer 1501 33).value (bytesAt oneAnswer) = some (some 0x0A000202) ∧
    Within 33 (dnsAnswer 1501 33) (bytesAt oneAnswer) := by
  obtain ⟨-, haccept, hdecode, hanswer⟩ := dns_names_and_answers
  have hgood : ∀ l ∈ [[103, 111], [111, 115]], GoodLabel l := by
    unfold GoodLabel
    decide
  have hname := (haccept [[103, 111], [111, 115]] true 256 hgood (by decide)).2 (by decide)
  obtain ⟨r, hval, hiff, hread⟩ := hanswer (bytesAt oneAnswer) 33 (by decide) 1501 (by decide)
  have hrecord : Answered (bytesAt oneAnswer) 33 1 17 (be32 (bytesAt oneAnswer) 29) :=
    .here (.pointer (by decide) (by decide)) (by decide) (by decide) (by decide)
  have hip : r = some (be32 (bytesAt oneAnswer) 29) :=
    (hiff _).2 ⟨by decide, 13, .root (by decide) (by decide), hrecord⟩
  rw [hval, hip]
  exact ⟨hname, (hdecode [[103, 111], [111, 115]] true 256 _ hgood (by decide) hname).1, by decide, hread⟩

end ComputerOS.Net
