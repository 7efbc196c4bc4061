import Mathlib.Algebra.Order.Ring.Int
import Mathlib.Data.Finset.Card
import Mathlib.Data.List.Basic

/-!
Frames in a stream of bytes.

A frame is a body behind its length, which has four bytes. A reader takes a
stream one byte after the other (`feed`), gathers the bytes of a length and then
those of a body, and depends on the bytes only, not on the pieces they come in.
What it does about a length is left open: a verdict says whether a body of that
length is read, is refused, or leaves the reader stuck. A stream of frames whose
lengths are all taken gives their bodies (`feedAll_stream`).
-/

namespace Fastore.Lib

open List

abbrev Bytes := List UInt8

/-! ### Numbers of four bytes -/

def le32 (n : ℕ) : Bytes :=
  [UInt8.ofNat n, UInt8.ofNat (n / 2 ^ 8), UInt8.ofNat (n / 2 ^ 16), UInt8.ofNat (n / 2 ^ 24)]

def ofLE : Bytes → ℕ
  | [] => 0
  | b :: bs => b.toNat + 256 * ofLE bs

def be32 (n : ℕ) : Bytes := (le32 n).reverse

def ofBE (bs : Bytes) : ℕ := ofLE bs.reverse

@[simp] theorem length_le32 (n : ℕ) : (le32 n).length = 4 := rfl

@[simp] theorem length_be32 (n : ℕ) : (be32 n).length = 4 := rfl

theorem ofLE_le32 {n : ℕ} (h : n < 2 ^ 32) : ofLE (le32 n) = n := by
  simp only [le32, ofLE, UInt8.toNat_ofNat']
  omega

theorem ofBE_be32 {n : ℕ} (h : n < 2 ^ 32) : ofBE (be32 n) = n := by
  rw [ofBE, be32, reverse_reverse, ofLE_le32 h]

theorem le32_ofLE {bs : Bytes} (h : bs.length = 4) : le32 (ofLE bs) = bs := by
  obtain ⟨a, b, c, d, rfl⟩ : ∃ a b c d, bs = [a, b, c, d] := by
    match bs, h with
    | [a, b, c, d], _ => exact ⟨a, b, c, d, rfl⟩
  have ha := a.toNat_lt
  have hb := b.toNat_lt
  have hc := c.toNat_lt
  have hd := d.toNat_lt
  simp only [le32, ofLE, List.cons.injEq, and_true, ← UInt8.toNat_inj, UInt8.toNat_ofNat']
  refine ⟨?_, ?_, ?_, ?_⟩ <;> omega

/-! ### Frames -/

def frame (body : Bytes) : Bytes := be32 body.length ++ body

def stream (frames : List Bytes) : Bytes := frames.flatMap frame

inductive Verdict
  | taken
  | refused
  | stuck
  deriving DecidableEq

inductive Reader
  | length (got : Bytes)
  | body (want : ℕ) (got : Bytes)
  /-- The body was refused; what has been read since. -/
  | refused (read : Bytes)
  | stuck
  deriving DecidableEq

structure Received where
  frames : List Bytes
  reader : Reader

section Feed

variable (verdict : ℕ → Verdict)

def Received.begin (frames : List Bytes) (n : ℕ) : Received :=
  match verdict n with
  | .taken => ⟨frames, .body n []⟩
  | .refused => ⟨frames, .refused []⟩
  | .stuck => ⟨frames, .stuck⟩

def feed : Received → UInt8 → Received
  | ⟨frames, .length got⟩, b =>
    if got.length < 3 then ⟨frames, .length (got ++ [b])⟩
    else Received.begin verdict frames (ofBE (got ++ [b]))
  | ⟨frames, .body want got⟩, b =>
    if got.length + 1 < want then ⟨frames, .body want (got ++ [b])⟩
    else ⟨frames ++ [got ++ [b]], .length []⟩
  | ⟨frames, .refused read⟩, b => ⟨frames, .refused (read ++ [b])⟩
  | ⟨frames, .stuck⟩, _ => ⟨frames, .stuck⟩

def feedAll (r : Received) (bs : Bytes) : Received := bs.foldl (feed verdict) r

variable {verdict} {frames : List Bytes} {got bs : Bytes} {want : ℕ}

theorem feedAll_append (r : Received) (bs cs : Bytes) :
    feedAll verdict r (bs ++ cs) = feedAll verdict (feedAll verdict r bs) cs := foldl_append

theorem feedAll_length (h : got.length + bs.length < 4) :
    feedAll verdict ⟨frames, .length got⟩ bs = ⟨frames, .length (got ++ bs)⟩ := by
  induction bs generalizing got with
  | nil => simp [feedAll]
  | cons b bs ih =>
    rw [length_cons] at h
    have hnext : feedAll verdict ⟨frames, .length (got ++ [b])⟩ bs = _ := ih (by simp; omega)
    rw [append_assoc, singleton_append] at hnext
    simpa only [feedAll, foldl_cons, feed, if_pos (by omega : got.length < 3)] using hnext

theorem feedAll_length_end (h : got.length + bs.length = 4) (hgot : got.length < 4) :
    feedAll verdict ⟨frames, .length got⟩ bs =
      Received.begin verdict frames (ofBE (got ++ bs)) := by
  obtain ⟨cs, b, rfl⟩ := (eq_nil_or_concat bs).resolve_left (by rintro rfl; simp at h; omega)
  rw [concat_eq_append, length_append, length_singleton] at h
  rw [concat_eq_append, feedAll_append, feedAll_length (by omega), ← append_assoc]
  simp only [feedAll, foldl_cons, foldl_nil, feed, length_append,
    if_neg (by omega : ¬ got.length + cs.length < 3)]

theorem feedAll_body (h : got.length + bs.length < want) :
    feedAll verdict ⟨frames, .body want got⟩ bs = ⟨frames, .body want (got ++ bs)⟩ := by
  induction bs generalizing got with
  | nil => simp [feedAll]
  | cons b bs ih =>
    rw [length_cons] at h
    have hnext : feedAll verdict ⟨frames, .body want (got ++ [b])⟩ bs = _ := ih (by simp; omega)
    rw [append_assoc, singleton_append] at hnext
    simpa only [feedAll, foldl_cons, feed, if_pos (by omega : got.length + 1 < want)]
      using hnext

theorem feedAll_body_end (h : got.length + bs.length = want) (hgot : got.length < want) :
    feedAll verdict ⟨frames, .body want got⟩ bs = ⟨frames ++ [got ++ bs], .length []⟩ := by
  obtain ⟨cs, b, rfl⟩ := (eq_nil_or_concat bs).resolve_left (by rintro rfl; simp at h; omega)
  rw [concat_eq_append, length_append, length_singleton] at h
  rw [concat_eq_append, feedAll_append, feedAll_body (by omega), ← append_assoc]
  simp only [feedAll, foldl_cons, foldl_nil, feed, length_append,
    if_neg (by omega : ¬ got.length + cs.length + 1 < want)]

theorem feedAll_refused (bs read : Bytes) :
    feedAll verdict ⟨frames, .refused read⟩ bs = ⟨frames, .refused (read ++ bs)⟩ := by
  induction bs generalizing read with
  | nil => simp [feedAll]
  | cons b bs ih =>
    have hnext := ih (read ++ [b])
    rw [append_assoc, singleton_append] at hnext
    exact hnext

theorem feedAll_stuck (bs : Bytes) :
    feedAll verdict ⟨frames, .stuck⟩ bs = ⟨frames, .stuck⟩ := by
  induction bs with
  | nil => rfl
  | cons b bs ih => exact ih

theorem frames_begin (n : ℕ) : (Received.begin verdict frames n).frames = frames := by
  unfold Received.begin
  split <;> rfl

theorem frames_prefix_feed (r : Received) (b : UInt8) :
    r.frames <+: (feed verdict r b).frames := by
  obtain ⟨frames, reader⟩ := r
  cases reader with
  | length got =>
    rw [feed]
    split
    · exact prefix_rfl
    · exact ⟨[], by rw [append_nil, frames_begin]⟩
  | body want got =>
    rw [feed]
    split
    · exact prefix_rfl
    · exact prefix_append _ _
  | refused read => exact prefix_rfl
  | stuck => exact prefix_rfl

theorem frames_prefix (r : Received) (bs : Bytes) :
    r.frames <+: (feedAll verdict r bs).frames := by
  induction bs generalizing r with
  | nil => exact prefix_rfl
  | cons b bs ih => exact (frames_prefix_feed r b).trans (ih (feed verdict r b))

theorem feedAll_be32 {n : ℕ} (h : n < 2 ^ 32) :
    feedAll verdict ⟨frames, .length []⟩ (be32 n) = Received.begin verdict frames n := by
  rw [feedAll_length_end (by simp) (by simp), nil_append, ofBE_be32 h]

/-- **A stream of frames** gives their bodies. -/
theorem feedAll_stream {todo : List Bytes} (h : ∀ f ∈ todo,
    f ≠ [] ∧ f.length < 2 ^ 32 ∧ verdict f.length = .taken) :
    feedAll verdict ⟨frames, .length []⟩ (stream todo) = ⟨frames ++ todo, .length []⟩ := by
  induction todo generalizing frames with
  | nil => simp [stream, feedAll]
  | cons f todo ih =>
    obtain ⟨hne, hlt, htaken⟩ := h f mem_cons_self
    have hbegin : Received.begin verdict frames f.length = ⟨frames, .body f.length []⟩ := by
      rw [Received.begin, htaken]
    have hbody : feedAll verdict ⟨frames, .body f.length []⟩ f = ⟨frames ++ [f], .length []⟩ :=
      feedAll_body_end (by simp) (length_pos_iff.mpr hne)
    rw [stream, flatMap_cons, frame, append_assoc, feedAll_append,
      feedAll_be32 hlt, hbegin, feedAll_append, hbody, ← stream,
      ih fun g hg => h g (mem_cons_of_mem _ hg), append_assoc, singleton_append]

end Feed

end Fastore.Lib
