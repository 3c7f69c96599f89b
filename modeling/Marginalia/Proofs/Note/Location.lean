import Marginalia.Note.Basic
import Marginalia.Proofs.Text.Decimal

set_option autoImplicit false

/-!
# Keys name one location

The line of a key is its last run of digits, and the colon before it is the last
colon of the key.  So file and line can be told from the key, whatever colons
and digits the file has in its name.
-/

namespace Marginalia

open Marginalia.Text

/-- Two texts that end in a colon and digits agree in what stands on both sides
of the last colon. -/
theorem append_colon_digits_inj {s t : List Char} {a b : List Char}
    (ha : ∀ c ∈ a, isDigit c = true) (hb : ∀ c ∈ b, isDigit c = true)
    (h : s ++ ':' :: a = t ++ ':' :: b) : s = t ∧ a = b := by
  rcases List.append_eq_append_iff.1 h with ⟨u, ht, ha'⟩ | ⟨u, hs, hb'⟩
  · cases u with
    | nil => exact ⟨by simpa using ht.symm, by simpa using ha'⟩
    | cons c u =>
      rw [List.cons_append, List.cons.injEq] at ha'
      have := ha ':' (by rw [ha'.2]; simp)
      exact absurd this (by decide)
  · cases u with
    | nil => exact ⟨by simpa using hs, by simpa using hb'.symm⟩
    | cons c u =>
      rw [List.cons_append, List.cons.injEq] at hb'
      have := hb ':' (by rw [hb'.2]; simp)
      exact absurd this (by decide)

theorem toList_locationKey (filepath : String) (line : UInt32) :
    (locationKey filepath line).toList = filepath.toList ++ ':' :: decimal line.toNat := by
  simp [locationKey, decimalString]

theorem locationKey_inj {f g : String} {k l : UInt32} (h : locationKey f k = locationKey g l) :
    f = g ∧ k = l := by
  have hlist := congrArg String.toList h
  rw [toList_locationKey, toList_locationKey] at hlist
  obtain ⟨hfile, hline⟩ := append_colon_digits_inj (fun _ => isDigit_of_mem_decimal)
    (fun _ => isDigit_of_mem_decimal) hlist
  exact ⟨String.toList_inj.1 hfile, UInt32.toNat_inj.1 (decimal_injective hline)⟩

/-! ## Places -/

/-- A place for a note: a file and a line of it. -/
abbrev Location : Type := String × UInt32

namespace Location

/-- The key of a place. -/
def key (p : Location) : String := locationKey p.1 p.2

theorem key_injective {p q : Location} (h : p.key = q.key) : p = q :=
  Prod.ext (locationKey_inj h).1 (locationKey_inj h).2

@[simp] theorem key_inj {p q : Location} : p.key = q.key ↔ p = q := ⟨key_injective, congrArg key⟩

end Location

/-- The place where a comment starts. -/
def Comment.place (c : Comment) : Location := (c.filepath, c.line)

/-- The place a draft is for. -/
def Draft.place (d : Draft) : Location := (d.filepath, d.line)

/-- The place a note is for. -/
def Note.place (n : Note) : Location := n.toDraft.place

theorem Comment.key_eq (c : Comment) : c.key = c.place.key := rfl

theorem Note.key_eq (n : Note) : n.key = n.place.key := rfl

@[simp] theorem Draft.place_ofComment (c : Comment) : (Draft.ofComment c).place = c.place := rfl

end Marginalia
