import Fickle.Fault

/-! # Reading step by step

A decoder takes its bytes off a buffer, one field after another, and makes room for what is
announced. Here each such step is on its own, and a step that cannot be made is a trap, which is no
fault. A reading is compared with a decoder that has the bytes all at once.
-/

namespace Fickle.Log

/-! ## Readings -/

/-- A step that cannot be made. -/
inductive Trap where
  /-- Bytes are read that are not there. -/
  | overrun
  /-- A length would be less than zero. -/
  | underflow
  /-- A length does not fit into a word. -/
  | overflow

structure Buffer where
  /-- The bytes that have not been read. -/
  left : List UInt8
  /-- The numbers of records that room was made for. -/
  room : List Nat

/-- Steps on a buffer, which may come to a fault, or to a trap. -/
abbrev Reading := ExceptT Fault (StateT Buffer (Except Trap))

namespace Reading

variable {β γ : Type}

/-- What a reading comes to on a buffer, and the buffer after it. -/
def on (r : Reading β) (b : Buffer) : Except Trap (Except Fault β × Buffer) :=
  StateT.run (ExceptT.run r) b

/-- What a reading makes of bytes, and the bytes that it leaves. -/
def onBytes (r : Reading β) (bs : List UInt8) : Except Trap (Except Fault (β × List UInt8)) :=
  (r.on ⟨bs, []⟩).map fun (result, b) => result.map fun a => (a, b.left)

def trap (t : Trap) : Reading β := ExceptT.mk fun _ => .error t

/-! ## Steps -/

def left : Reading (List UInt8) := return (← get).left

def remaining : Reading Nat := return (← left).length

/-- The next `n` bytes, which are not taken yet. -/
def peek (n : Nat) : Reading (List UInt8) := do
  let bs ← left
  if bs.length < n then trap .overrun else return bs.take n

def skip (n : Nat) : Reading Unit := do
  let bs ← left
  if bs.length < n then trap .overrun else modify fun b => { b with left := bs.drop n }

def bytes (n : Nat) : Reading (List UInt8) := do
  let bs ← peek n
  skip n
  return bs

def byte : Reading UInt8 := do
  match ← left with
  | [] => trap .overrun
  | x :: bs =>
    modify fun b => { b with left := bs }
    return x

def word : Reading UInt64 := return Bytes.toWord (← bytes 8)

/-- Goes on with the first `n` bytes, and hands out those after them. -/
def split (n : Nat) : Reading (List UInt8) := do
  let bs ← left
  if bs.length < n then trap .overrun
  else
    modify fun b => { b with left := bs.take n }
    return bs.drop n

def minus (m n : Nat) : Reading Nat := if m < n then trap .underflow else return m - n

def plus (m n : Nat) : Reading Nat :=
  if UInt64.size ≤ m + n then trap .overflow else return m + n

/-- A product, if it fits into a word. -/
def product? (m n : Nat) : Option Nat := if m * n < UInt64.size then some (m * n) else none

def reserve (n : Nat) : Reading Unit := modify fun b => { b with room := n :: b.room }

/-! ## What steps come to -/

variable {δ : Type} {b b' : Buffer} {bs rest : List UInt8} {room : List Nat} {m n : Nat}

theorem on_bind (r : Reading β) (f : β → Reading γ) (b : Buffer) :
    (r >>= f).on b = match r.on b with
      | .ok (.ok a, b') => (f a).on b'
      | .ok (.error fault, b') => .ok (.error fault, b')
      | .error t => .error t := by
  have hbind : (r >>= f).on b = (r.on b >>= fun p => ExceptT.bindCont f p.1 p.2) := rfl
  rw [hbind]
  rcases r.on b with t | ⟨fault | a, b'⟩
  · rfl
  · rfl
  · rfl

theorem on_left : left.on b = .ok (.ok b.left, b) := rfl

theorem on_remaining : remaining.on b = .ok (.ok b.left.length, b) := rfl

theorem on_byte (x : UInt8) : byte.on ⟨x :: rest, room⟩ = .ok (.ok x, ⟨rest, room⟩) := rfl

theorem on_peek (h : n ≤ b.left.length) : (peek n).on b = .ok (.ok (b.left.take n), b) := by
  rw [peek, on_bind, on_left]
  dsimp only
  rw [if_neg (Nat.not_lt.mpr h)]
  rfl

theorem on_skip (h : n ≤ b.left.length) :
    (skip n).on b = .ok (.ok (), { b with left := b.left.drop n }) := by
  rw [skip, on_bind, on_left]
  dsimp only
  rw [if_neg (Nat.not_lt.mpr h)]
  rfl

theorem on_bytes (h : bs.length = n) :
    (bytes n).on ⟨bs ++ rest, room⟩ = .ok (.ok bs, ⟨rest, room⟩) := by
  have hle : n ≤ (Buffer.mk (bs ++ rest) room).left.length := by
    dsimp only
    rw [List.length_append]
    omega
  rw [bytes, on_bind, on_peek hle]
  dsimp only
  rw [on_bind, on_skip hle]
  dsimp only
  rw [List.take_left' h, List.drop_left' h]
  rfl

theorem on_word (h : bs.length = 8) :
    word.on ⟨bs ++ rest, room⟩ = .ok (.ok (Bytes.toWord bs), ⟨rest, room⟩) := by
  rw [word, on_bind, on_bytes h]
  rfl

theorem on_split (h : n ≤ bs.length) :
    (split n).on ⟨bs, room⟩ = .ok (.ok (bs.drop n), ⟨bs.take n, room⟩) := by
  rw [split, on_bind, on_left]
  dsimp only
  rw [if_neg (Nat.not_lt.mpr h)]
  rfl

theorem on_reserve : (reserve n).on b = .ok (.ok (), { b with room := n :: b.room }) := rfl

theorem on_minus (h : n ≤ m) : (minus m n).on b = .ok (.ok (m - n), b) := by
  rw [minus, if_neg (Nat.not_lt.mpr h)]
  rfl

theorem on_plus (h : m + n < UInt64.size) : (plus m n).on b = .ok (.ok (m + n), b) := by
  rw [plus, if_neg (Nat.not_le.mpr h)]
  rfl

theorem on_ofExcept (x : Except Fault β) : (ofExcept x : Reading β).on b = .ok (x, b) := by
  rcases x with fault | a
  · rfl
  · rfl

/-! ## Following a decoder -/

/-- On the buffer the reading meets no trap. It fails with the fault of the decoder, and leaves a
buffer as `E` says; or its result and the buffer that it leaves are to the decoder's result as `R`
says. -/
structure Follows (r : Reading β) (b : Buffer) (x : Except Fault γ) (R : β → γ → Buffer → Prop)
    (E : Buffer → Prop) : Prop where
  ok : ∀ c, x = .ok c → ∃ a b', r.on b = .ok (.ok a, b') ∧ R a c b'
  error : ∀ fault, x = .error fault → ∃ b', r.on b = .ok (.error fault, b') ∧ E b'

variable {R : β → γ → Buffer → Prop} {E : Buffer → Prop} {r : Reading β} {x : Except Fault γ}

theorem follows_pure {a : β} {c : γ} (h : R a c b) : Follows (pure a) b (pure c) R E where
  ok := by
    rintro _ ⟨⟩
    exact ⟨a, b, rfl, h⟩
  error := by
    rintro _ ⟨⟩

theorem follows_throw (fault : Fault) (h : E b) :
    Follows (throw fault : Reading β) b (throw fault : Except Fault γ) R E where
  ok := by
    rintro _ ⟨⟩
  error := by
    rintro _ ⟨⟩
    exact ⟨b, rfl, h⟩

/-- A step that the decoder does not take on its own. -/
theorem follows_step {a : δ} {q : Reading δ} {f : δ → Reading β} (hq : q.on b = .ok (.ok a, b'))
    (h : Follows (f a) b' x R E) : Follows (q >>= f) b x R E where
  ok c hc := by
    obtain ⟨a', b'', hon, hR⟩ := h.ok c hc
    refine ⟨a', b'', ?_, hR⟩
    rw [on_bind, hq]
    exact hon
  error fault hfault := by
    obtain ⟨b'', hon, hE⟩ := h.error fault hfault
    refine ⟨b'', ?_, hE⟩
    rw [on_bind, hq]
    exact hon

theorem follows_bind {ε : Type} {q : Reading δ} {y : Except Fault ε} {f : δ → Reading β}
    {g : ε → Except Fault γ} {R' : δ → ε → Buffer → Prop} {E' : Buffer → Prop}
    (hq : Follows q b y R' E') (hE : ∀ b', E' b' → E b')
    (h : ∀ a c b', y = .ok c → R' a c b' → Follows (f a) b' (g c) R E) :
    Follows (q >>= f) b (y >>= g) R E := by
  rcases hy : y with fault | c
  · obtain ⟨b', hon, hE'⟩ := hq.error fault hy
    constructor
    · rintro _ ⟨⟩
    · rintro _ ⟨⟩
      refine ⟨b', ?_, hE b' hE'⟩
      rw [on_bind, hon]
  · obtain ⟨a, b', hon, hR'⟩ := hq.ok c hy
    exact follows_step hon (h a c b' hy hR')

theorem follows_ofExcept {y : Except Fault δ} {f : δ → Reading β} {g : δ → Except Fault γ}
    (hE : E b) (h : ∀ a, y = .ok a → Follows (f a) b (g a) R E) :
    Follows (ofExcept y >>= f) b (y >>= g) R E := by
  have hy : Follows (ofExcept y : Reading δ) b y (fun a c b' => a = c ∧ b' = b) (· = b) :=
    ⟨fun c hc => ⟨c, b, by rw [on_ofExcept, hc], rfl, rfl⟩,
      fun fault hfault => ⟨b, by rw [on_ofExcept, hfault], rfl⟩⟩
  apply follows_bind hy
  · rintro _ rfl
    exact hE
  · rintro a _ _ hc ⟨rfl, rfl⟩
    exact h a hc

/-- Both check the same first. -/
theorem follows_guard {c : Prop} [Decidable c] (fault : Fault) (hE : E b)
    (h : ¬ c → Follows r b x R E) :
    Follows (if c then (do throw fault; r) else r) b (if c then (do throw fault; x) else x) R E := by
  by_cases hc : c
  · rw [if_pos hc, if_pos hc]
    exact follows_throw fault hE
  · rw [if_neg hc, if_neg hc]
    exact h hc

theorem Follows.onBytes_eq {view : γ → β × List UInt8} (h : Follows r ⟨bs, []⟩ x R E)
    (hview : ∀ a c b', R a c b' → view c = (a, b'.left)) :
    r.onBytes bs = .ok (x.map view) := by
  unfold onBytes
  rcases hx : x with fault | c
  · obtain ⟨b', hon, -⟩ := h.error fault hx
    rw [hon]
    rfl
  · obtain ⟨a, b', hon, hR⟩ := h.ok c hx
    have hc := hview a c b' hR
    rw [hon]
    show Except.ok (Except.ok (a, b'.left)) = Except.ok (Except.ok (view c))
    rw [hc]

theorem Follows.of_on_eq_ok {P : Buffer → Prop} {result : Except Fault β}
    (h : Follows r b x R E) (hR : ∀ a c b', R a c b' → P b') (hE : ∀ b', E b' → P b')
    (hon : r.on b = .ok (result, b')) : P b' := by
  rcases hx : x with fault | c
  · obtain ⟨b'', hon', hE'⟩ := h.error fault hx
    cases hon.symm.trans hon'
    exact hE b' hE'
  · obtain ⟨a, b'', hon', hR'⟩ := h.ok c hx
    cases hon.symm.trans hon'
    exact hR a c b' hR'

/-- The reading and the decoder come to the same, leave the same bytes, and make no room. -/
def Mirrors (r : Reading β)
    (decode : List UInt8 → Except Fault (β × List UInt8)) : Prop :=
  ∀ b : Buffer, Follows r b (decode b.left) (fun a c b' => c = (a, b'.left) ∧ b'.room = b.room)
    fun b' => b'.room = b.room

theorem Mirrors.onBytes_eq {decode : List UInt8 → Except Fault (β × List UInt8)}
    (h : Mirrors r decode) (bs : List UInt8) : r.onBytes bs = .ok (decode bs) := by
  have hmap : r.onBytes bs = .ok ((decode bs).map id) :=
    (h ⟨bs, []⟩).onBytes_eq fun a c b' hR => hR.1
  rw [hmap]
  rcases decode bs with fault | c
  · rfl
  · rfl

end Reading

end Fickle.Log
