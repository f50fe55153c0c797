import ZeroNet.BoundedVec
import Mathlib.Data.Vector.Defs
import Mathlib.Data.List.Flatten
import Mathlib.Tactic.Ring

/-!
# SCALE decoders over byte inputs

A `Decoder α` is the program of a `Decode` implementation: a finite tree of one-byte reads
ending in a value or an error message. `Decoder.run` executes it on an `Input`, which says
what a read past the end does. A byte slice fails with `"Not enough data to fill buffer"`;
`AppendZerosInput` over a slice yields zero bytes for ever, so it never fails.

On top of the tree sit the codecs of `parity-scale-codec` that the identity and currency
types derive: little-endian integers, `Compact<u32>` lengths, vectors, bounded vectors,
options and byte arrays. Each comes with its round trip: decoding `encode a ++ rest` returns
`a` and leaves exactly `rest`, on either input. Since a decoder only ever reads, two inputs
that agree once both are padded with zeros decode alike under `AppendZerosInput`.
-/

namespace Scale

inductive Decoder (α : Type) where
  | pure (a : α)
  | fail (msg : String)
  | read (next : UInt8 → Decoder α)

inductive Input where
  | slice
  | appendZeros
  deriving DecidableEq

def Input.readByte : Input → List UInt8 → Except String (UInt8 × List UInt8)
  | _, b :: bs => .ok (b, bs)
  | .slice, [] => .error "Not enough data to fill buffer"
  | .appendZeros, [] => .ok (0, [])

namespace Decoder

variable {α β γ : Type}

def bind : Decoder α → (α → Decoder β) → Decoder β
  | pure a, f => f a
  | fail msg, _ => fail msg
  | read next, f => read fun b => (next b).bind f

instance : Monad Decoder where
  pure := Decoder.pure
  bind := Decoder.bind

def run (input : Input) : Decoder α → List UInt8 → Except String (α × List UInt8)
  | pure a, bs => .ok (a, bs)
  | fail msg, _ => .error msg
  | read next, bs =>
    match input.readByte bs with
    | .ok (b, rest) => (next b).run input rest
    | .error msg => .error msg

@[simp] theorem pure_def (a : α) : (Pure.pure a : Decoder α) = Decoder.pure a := rfl

@[simp] theorem bind_def (d : Decoder α) (f : α → Decoder β) : d >>= f = d.bind f := rfl

@[simp] theorem pure_bind (a : α) (f : α → Decoder β) : (pure a).bind f = f a := rfl

@[simp] theorem run_pure (input : Input) (a : α) (bs : List UInt8) :
    (pure a).run input bs = .ok (a, bs) := rfl

@[simp] theorem run_fail (input : Input) (msg : String) (bs : List UInt8) :
    (fail msg : Decoder α).run input bs = .error msg := rfl

@[simp] theorem run_read_cons (input : Input) (next : UInt8 → Decoder α) (b : UInt8)
    (bs : List UInt8) : (read next).run input (b :: bs) = (next b).run input bs := rfl

theorem run_bind (input : Input) (d : Decoder α) (f : α → Decoder β) (bs : List UInt8) :
    (d.bind f).run input bs = (d.run input bs).bind (fun p => (f p.1).run input p.2) := by
  induction d generalizing bs with
  | pure a => rfl
  | fail msg => rfl
  | read next ih =>
    cases bs with
    | cons b bs => exact ih b bs
    | nil =>
      cases input with
      | slice => rfl
      | appendZeros => exact ih 0 []

theorem run_bind_of_ok {input : Input} {d : Decoder α} {bs rest : List UInt8} {a : α}
    (h : d.run input bs = .ok (a, rest)) (f : α → Decoder β) :
    (d.bind f).run input bs = (f a).run input rest := by
  rw [run_bind, h]
  rfl

theorem run_bind_eq_ok {input : Input} {d : Decoder α} {f : α → Decoder β}
    {bs rest : List UInt8} {b : β} (h : (d.bind f).run input bs = .ok (b, rest)) :
    ∃ a mid, d.run input bs = .ok (a, mid) ∧ (f a).run input mid = .ok (b, rest) := by
  rw [run_bind] at h
  cases hd : d.run input bs with
  | error msg => rw [hd] at h; cases h
  | ok p =>
    rw [hd] at h
    exact ⟨p.1, p.2, rfl, h⟩

/-! ## Padding with zeros -/

/-- Two byte strings that agree once both are padded with zeros. -/
def PadEq (p q : List UInt8) : Prop := ∀ i, p.getD i 0 = q.getD i 0

theorem PadEq.tail {p q : List UInt8} (h : PadEq p q) : PadEq p.tail q.tail := by
  intro i
  simpa only [List.getD_eq_getElem?_getD, List.getElem?_tail] using h (i + 1)

theorem PadEq.head {p q : List UInt8} (h : PadEq p q) : p.headD 0 = q.headD 0 := by
  simpa only [List.getD_eq_getElem?_getD, List.headD_eq_head?_getD, List.head?_eq_getElem?]
    using h 0

theorem padEq_append_zeros (p : List UInt8) (k : ℕ) : PadEq p (p ++ List.replicate k 0) := by
  intro i
  rcases Nat.lt_or_ge i p.length with hi | hi
  · simp [List.getD_eq_getElem?_getD, List.getElem?_append_left hi]
  · simp only [List.getD_eq_getElem?_getD, List.getElem?_append_right hi,
      List.getElem?_eq_none hi, List.getElem?_replicate]
    split <;> rfl

theorem readByte_appendZeros (bs : List UInt8) :
    Input.appendZeros.readByte bs = .ok (bs.headD 0, bs.tail) := by
  cases bs <;> rfl

/-- Under `AppendZerosInput` a decoder sees only the zero-padded stream. -/
theorem run_appendZeros_congr (d : Decoder α) {p q : List UInt8} (h : PadEq p q) :
    (d.run .appendZeros p).map Prod.fst = (d.run .appendZeros q).map Prod.fst := by
  induction d generalizing p q with
  | pure a => rfl
  | fail msg => rfl
  | read next ih =>
    simp only [run, readByte_appendZeros]
    rw [h.head]
    exact ih _ h.tail

/-! ## Reading bytes -/

def readByte : Decoder UInt8 := read pure

/-- `input.read(&mut [u8; n])`, one byte after another. -/
def readBytes : ℕ → Decoder (List UInt8)
  | 0 => pure []
  | n + 1 => read fun b => (readBytes n).bind fun bs => pure (b :: bs)

theorem run_readBytes (input : Input) (l rest : List UInt8) :
    (readBytes l.length).run input (l ++ rest) = .ok (l, rest) := by
  induction l with
  | nil => rfl
  | cons b l ih =>
    simp only [List.length_cons, readBytes, List.cons_append, run_read_cons]
    rw [run_bind_of_ok ih]
    rfl

theorem run_readBytes_slice {n : ℕ} {bs l rest : List UInt8}
    (h : (readBytes n).run .slice bs = .ok (l, rest)) : bs = l ++ rest ∧ l.length = n := by
  induction n generalizing bs l with
  | zero => cases h; exact ⟨rfl, rfl⟩
  | succ n ih =>
    cases bs with
    | nil => cases h
    | cons b bs =>
      simp only [readBytes, run_read_cons] at h
      obtain ⟨l', mid, hl', hp⟩ := run_bind_eq_ok h
      cases hp
      obtain ⟨rfl, hlen⟩ := ih hl'
      exact ⟨rfl, by simp [hlen]⟩

/-- `<[u8; n]>::decode`. -/
def readArray : (n : ℕ) → Decoder (List.Vector UInt8 n)
  | 0 => pure List.Vector.nil
  | n + 1 => read fun b => (readArray n).bind fun v => pure (List.Vector.cons b v)

theorem run_readArray (input : Input) {n : ℕ} (v : List.Vector UInt8 n) (rest : List UInt8) :
    (readArray n).run input (v.toList ++ rest) = .ok (v, rest) := by
  induction n with
  | zero => rw [List.Vector.eq_nil v]; rfl
  | succ n ih =>
    obtain ⟨b, w, rfl⟩ : ∃ b w, v = List.Vector.cons b w :=
      ⟨v.head, v.tail, (List.Vector.cons_head_tail v).symm⟩
    simp only [readArray, List.Vector.toList_cons, List.cons_append, run_read_cons]
    rw [run_bind_of_ok (ih w)]
    rfl

theorem run_readArray_slice {n : ℕ} {bs rest : List UInt8} {v : List.Vector UInt8 n}
    (h : (readArray n).run .slice bs = .ok (v, rest)) : bs = v.toList ++ rest := by
  induction n generalizing bs with
  | zero => cases h; rfl
  | succ n ih =>
    cases bs with
    | nil => cases h
    | cons b bs =>
      simp only [readArray, run_read_cons] at h
      obtain ⟨w, mid, hw, hp⟩ := run_bind_eq_ok h
      cases hp
      rw [ih hw, List.Vector.toList_cons, List.cons_append]

/-- `for _ in 0..n { r.push(T::decode(input)?) }`. -/
def replicate (n : ℕ) (d : Decoder α) : Decoder (List α) :=
  match n with
  | 0 => pure []
  | n + 1 => d.bind fun a => (replicate n d).bind fun as => pure (a :: as)

/-! ## Little-endian integers -/

def readLE : ℕ → Decoder ℕ
  | 0 => pure 0
  | n + 1 => read fun b => (readLE n).bind fun m => pure (b.toNat + 256 * m)

end Decoder

def leBytes : ℕ → ℕ → List UInt8
  | 0, _ => []
  | n + 1, v => UInt8.ofNat v :: leBytes n (v / 256)

@[simp] theorem length_leBytes (n v : ℕ) : (leBytes n v).length = n := by
  induction n generalizing v with
  | zero => rfl
  | succ n ih => simp [leBytes, ih]

open Decoder in
theorem run_readLE (input : Input) (n v : ℕ) (rest : List UInt8) :
    (readLE n).run input (leBytes n v ++ rest) = .ok (v % 256 ^ n, rest) := by
  induction n generalizing v with
  | zero => simp [readLE, leBytes, Nat.mod_one]
  | succ n ih =>
    simp only [readLE, leBytes, List.cons_append, run_read_cons]
    rw [run_bind_of_ok (ih (v / 256))]
    simp only [run_pure, Except.ok.injEq, Prod.mk.injEq, and_true, UInt8.toNat_ofNat']
    rw [show 256 ^ (n + 1) = 256 * 256 ^ n from pow_succ' 256 n, Nat.mod_mul]

/-! ## Codecs and their round trips -/

structure Codec (α : Type) where
  encode : α → List UInt8
  decode : Decoder α

namespace Codec

variable {α β : Type}

/-- Decoding an encoding consumes exactly that encoding, on either input. -/
def RoundTrip (c : Codec α) : Prop :=
  ∀ (a : α) (input : Input) (rest : List UInt8), c.decode.run input (c.encode a ++ rest) = .ok (a, rest)

def prod (c : Codec α) (d : Codec β) : Codec (α × β) where
  encode p := c.encode p.1 ++ d.encode p.2
  decode := c.decode.bind fun a => d.decode.bind fun b => .pure (a, b)

theorem RoundTrip.prod {c : Codec α} {d : Codec β} (hc : c.RoundTrip) (hd : d.RoundTrip) :
    (c.prod d).RoundTrip := by
  intro p input rest
  simp only [Codec.prod, List.append_assoc]
  rw [Decoder.run_bind_of_ok (hc _ _ _), Decoder.run_bind_of_ok (hd _ _ _)]
  rfl

theorem run_replicate {c : Codec α} (hc : c.RoundTrip) (input : Input) (l : List α)
    (rest : List UInt8) :
    (Decoder.replicate l.length c.decode).run input ((l.map c.encode).flatten ++ rest) =
      .ok (l, rest) := by
  induction l with
  | nil => rfl
  | cons a l ih =>
    simp only [List.length_cons, Decoder.replicate, List.map_cons, List.flatten_cons,
      List.append_assoc]
    rw [Decoder.run_bind_of_ok (hc _ _ _), Decoder.run_bind_of_ok ih]
    rfl

/-- `Option<T>`: a `0` byte, or a `1` byte and the value. -/
def option (c : Codec α) : Codec (Option α) where
  encode
    | none => [0]
    | some a => 1 :: c.encode a
  decode := .read fun b =>
    match b.toNat with
    | 0 => .pure none
    | 1 => c.decode.bind fun a => .pure (some a)
    | _ => .fail "unexpected first byte decoding Option"

theorem RoundTrip.option {c : Codec α} (hc : c.RoundTrip) : c.option.RoundTrip := by
  intro o input rest
  cases o with
  | none => rfl
  | some a =>
    simp only [Codec.option, List.cons_append, Decoder.run_read_cons]
    exact (Decoder.run_bind_of_ok (hc a input rest) _)

def array (n : ℕ) : Codec (List.Vector UInt8 n) where
  encode v := v.toList
  decode := Decoder.readArray n

theorem roundTrip_array (n : ℕ) : (array n).RoundTrip :=
  fun v input rest => Decoder.run_readArray input v rest

def u32 : Codec UInt32 where
  encode x := leBytes 4 x.toNat
  decode := (Decoder.readLE 4).bind fun v => .pure (UInt32.ofNat v)

theorem roundTrip_u32 : u32.RoundTrip := by
  intro x input rest
  simp only [u32]
  rw [Decoder.run_bind_of_ok (run_readLE input 4 x.toNat rest)]
  simp only [Decoder.run_pure, Except.ok.injEq, Prod.mk.injEq, and_true]
  rw [Nat.mod_eq_of_lt (by simpa using x.toNat_lt), UInt32.ofNat_toNat]

def u64 : Codec UInt64 where
  encode x := leBytes 8 x.toNat
  decode := (Decoder.readLE 8).bind fun v => .pure (UInt64.ofNat v)

theorem roundTrip_u64 : u64.RoundTrip := by
  intro x input rest
  simp only [u64]
  rw [Decoder.run_bind_of_ok (run_readLE input 8 x.toNat rest)]
  simp only [Decoder.run_pure, Except.ok.injEq, Prod.mk.injEq, and_true]
  rw [Nat.mod_eq_of_lt (by simpa using x.toNat_lt), UInt64.ofNat_toNat]

end Codec

/-! ## `Compact<u32>` lengths -/

namespace Compact

def outOfRange : String := "out of range decoding Compact<u32>"

/-- `Compact<u32>::encode`: the two low bits of the first byte select a one-, two- or
four-byte mode, and values from `2 ^ 30` on are written in full after a `0b11` byte. The
shifted values `x << 2 | mode` are written as `4 * x + mode`. -/
def encode (n : ℕ) : List UInt8 :=
  if n < 2 ^ 6 then [UInt8.ofNat (4 * n)]
  else if n < 2 ^ 14 then leBytes 2 (4 * n + 1)
  else if n < 2 ^ 30 then leBytes 4 (4 * n + 2)
  else UInt8.ofNat 3 :: leBytes 4 n

/-- `Compact<u32>::decode`. The range checks reject encodings that a shorter mode could
have written. -/
def decode : Decoder ℕ :=
  .read fun lead =>
    match lead.toNat % 4 with
    | 0 => .pure (lead.toNat / 4)
    | 1 => .read fun b =>
      let x := (lead.toNat + 256 * b.toNat) / 4
      if 2 ^ 6 - 1 < x ∧ x ≤ 2 ^ 14 - 1 then .pure x else .fail outOfRange
    | 2 => (Decoder.readLE 3).bind fun m =>
      let x := (lead.toNat + 256 * m) / 4
      if 2 ^ 14 - 1 < x ∧ x ≤ 2 ^ 30 - 1 then .pure x else .fail outOfRange
    | _ =>
      if lead.toNat / 4 = 0 then
        (Decoder.readLE 4).bind fun x => if 2 ^ 30 - 1 < x then .pure x else .fail outOfRange
      else .fail outOfRange

theorem run_decode (input : Input) {n : ℕ} (hn : n < 2 ^ 32) (rest : List UInt8) :
    decode.run input (encode n ++ rest) = .ok (n, rest) := by
  unfold encode
  split_ifs with h6 h14 h30
  · -- one byte: `n << 2`
    simp only [decode, List.singleton_append, Decoder.run_read_cons, UInt8.toNat_ofNat']
    rw [show 4 * n % 2 ^ 8 % 4 = 0 by omega]
    simp only [Decoder.run_pure, Except.ok.injEq, Prod.mk.injEq, and_true]
    omega
  · -- two bytes: `n << 2 | 0b01`
    simp only [decode, leBytes, List.cons_append, List.nil_append, Decoder.run_read_cons,
      UInt8.toNat_ofNat']
    rw [show (4 * n + 1) % 2 ^ 8 % 4 = 1 by omega]
    simp only [Decoder.run_read_cons, UInt8.toNat_ofNat']
    have hx : ((4 * n + 1) % 2 ^ 8 + 256 * ((4 * n + 1) / 256 % 2 ^ 8)) / 4 = n := by omega
    rw [hx, if_pos (by omega)]
    rfl
  · -- four bytes: `n << 2 | 0b10`
    rw [show leBytes 4 (4 * n + 2) = UInt8.ofNat (4 * n + 2) :: leBytes 3 ((4 * n + 2) / 256)
      from rfl]
    simp only [decode, List.cons_append, Decoder.run_read_cons, UInt8.toNat_ofNat']
    rw [show (4 * n + 2) % 2 ^ 8 % 4 = 2 by omega]
    simp only
    rw [Decoder.run_bind_of_ok (run_readLE input 3 _ rest)]
    have hx : ((4 * n + 2) % 2 ^ 8 + 256 * ((4 * n + 2) / 256 % 256 ^ 3)) / 4 = n := by omega
    simp only [hx]
    rw [if_pos (by omega)]
    rfl
  · -- the `0b11` byte, then all four bytes
    simp only [decode, List.cons_append, Decoder.run_read_cons, UInt8.toNat_ofNat']
    simp only [show 3 % 2 ^ 8 % 4 = 3 from rfl]
    rw [if_pos trivial, Decoder.run_bind_of_ok (run_readLE input 4 n rest)]
    rw [Nat.mod_eq_of_lt (by simpa using hn), if_pos (by omega)]
    rfl

end Compact

namespace Codec

variable {α : Type}

/-- `Vec<T>`: a `Compact<u32>` length, then the elements. -/
def vec (c : Codec α) : Codec (List α) where
  encode l := Compact.encode l.length ++ (l.map c.encode).flatten
  decode := Compact.decode.bind fun n => Decoder.replicate n c.decode

theorem run_vec {c : Codec α} (hc : c.RoundTrip) (input : Input) {l : List α}
    (hl : l.length < 2 ^ 32) (rest : List UInt8) :
    (vec c).decode.run input ((vec c).encode l ++ rest) = .ok (l, rest) := by
  simp only [vec, List.append_assoc]
  rw [Decoder.run_bind_of_ok (Compact.run_decode input hl _)]
  exact run_replicate hc input l rest

def boundedVecExceeds : String := "BoundedVec exceeds its limit"

/-- `BoundedVec<T, S>`: encoded as its `Vec<T>`, and refused on decoding when longer than
`S::get()`. -/
def boundedVec (c : Codec α) (bound : ℕ) : Codec (BoundedVec α bound) where
  encode v := (vec c).encode v.toList
  decode := (vec c).decode.bind fun l =>
    if h : l.length ≤ bound then .pure ⟨l, h⟩ else .fail boundedVecExceeds

theorem RoundTrip.boundedVec {c : Codec α} (hc : c.RoundTrip) {bound : ℕ}
    (hb : bound < 2 ^ 32) : (c.boundedVec bound).RoundTrip := by
  intro v input rest
  simp only [Codec.boundedVec]
  rw [Decoder.run_bind_of_ok (run_vec hc input (lt_of_le_of_lt v.length_le hb) rest)]
  rw [dif_pos v.length_le]
  rfl

end Codec

end Scale
