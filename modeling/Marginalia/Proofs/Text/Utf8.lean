import Marginalia.Proofs.Text.Bytes
import Mathlib.Data.List.Forall2

set_option autoImplicit false

/-!
# Reading bytes as UTF-8

The pieces of bytes put together are the bytes again, and the bytes of a text fall into
the characters of the text.  So bytes are a text exactly if they are those of what is
shown for them, and a text is shown as it is.  A character of ASCII is always a piece of
its own: what stands before it and what stands after it are read each on their own.
-/

namespace Marginalia.RawText

open Marginalia.Text

/-! ## Characters by their bytes -/

/-- Whether bytes lie between bounds, one by one. -/
abbrev AreBetween (bounds : List (Nat × Nat)) (tail : RawText) : Prop :=
  List.Forall₂ (fun bound b => bound.1 ≤ b.toNat ∧ b.toNat ≤ bound.2) bounds tail

theorem pointOf_one (a : UInt8) : pointOf a [] = a.toNat := rfl

theorem pointOf_two (a b : UInt8) :
    pointOf a [b] = (a.toNat - 0xc0) * 64 + (b.toNat - 0x80) := rfl

theorem pointOf_three (a b c : UInt8) :
    pointOf a [b, c] = ((a.toNat - 0xe0) * 64 + (b.toNat - 0x80)) * 64 + (c.toNat - 0x80) := rfl

theorem pointOf_four (a b c d : UInt8) :
    pointOf a [b, c, d] =
      (((a.toNat - 0xf0) * 64 + (b.toNat - 0x80)) * 64 + (c.toNat - 0x80)) * 64 +
        (d.toNat - 0x80) := rfl

/-- A character begins with a byte that tells how it goes on, and does so, and its bytes
tell its number. -/
theorem exists_tail_utf8EncodeChar (c : Char) :
    ∃ first tail bounds, String.utf8EncodeChar c = first :: tail ∧
      tailBounds? first.toNat = some bounds ∧ AreBetween bounds tail ∧
      pointOf first tail = c.toNat := by
  have hmax : c.toNat < 0xd800 ∨ (0xdfff < c.toNat ∧ c.toNat < 0x110000) := c.valid
  unfold String.utf8EncodeChar
  simp only [show c.val.toNat = c.toNat from rfl]
  generalize c.toNat = n at *
  split_ifs with hone htwo hthree
  · refine ⟨_, _, [], rfl, ?_, .nil, ?_⟩
    · simp only [UInt8.toNat_ofNat', tailBounds?]
      rw [if_pos (by omega)]
    · rw [pointOf_one, UInt8.toNat_ofNat']
      omega
  · refine ⟨_, _, [(0x80, 0xbf)], rfl, ?_, .cons ?_ .nil, ?_⟩
    · simp only [UInt8.toNat_ofNat', tailBounds?]
      rw [if_neg (by omega), if_neg (by omega), if_pos (by omega)]
    · simp only [UInt8.toNat_ofNat']
      omega
    · simp only [pointOf_two, UInt8.toNat_ofNat']
      omega
  · refine ⟨_, _, [?second, ?third], rfl, ?bounds, .cons ?_ (.cons ?_ .nil), ?_⟩
    case bounds =>
      simp only [UInt8.toNat_ofNat', tailBounds?]
      rw [if_neg (by omega), if_neg (by omega), if_neg (by omega), if_pos (by omega)]
    · simp only [UInt8.toNat_ofNat']
      split_ifs <;> omega
    · simp only [UInt8.toNat_ofNat']
      omega
    · simp only [pointOf_three, UInt8.toNat_ofNat']
      omega
  · refine ⟨_, _, [?byTwo, ?byThree, ?byFour], rfl, ?ofFour,
      .cons ?_ (.cons ?_ (.cons ?_ .nil)), ?_⟩
    case ofFour =>
      simp only [UInt8.toNat_ofNat', tailBounds?]
      rw [if_neg (by omega), if_neg (by omega), if_neg (by omega), if_neg (by omega),
        if_pos (by omega)]
    · simp only [UInt8.toNat_ofNat']
      split_ifs <;> omega
    · simp only [UInt8.toNat_ofNat']
      omega
    · simp only [UInt8.toNat_ofNat']
      omega
    · simp only [pointOf_four, UInt8.toNat_ofNat']
      omega

theorem toNat_ofNat_of_isValidChar {n : Nat} (h : n.isValidChar) : (Char.ofNat n).toNat = n := by
  rw [Char.ofNat, dif_pos h]
  rfl

/-- Bytes that go on as the first of them tells are those of the character with their
number. -/
theorem utf8EncodeChar_pointOf {first : UInt8} {tail : RawText} {bounds : List (Nat × Nat)}
    (hfirst : tailBounds? first.toNat = some bounds) (htail : AreBetween bounds tail) :
    String.utf8EncodeChar (Char.ofNat (pointOf first tail)) = first :: tail := by
  have hbyte : ∀ (b : UInt8) (n : Nat), n = b.toNat → UInt8.ofNat n = b := by
    rintro b _ rfl
    exact UInt8.ofNat_toNat
  have hlt := first.toNat_lt
  unfold String.utf8EncodeChar
  simp only [show ∀ c : Char, c.val.toNat = c.toNat from fun _ => rfl]
  -- the sort of the first byte says how many bytes go on
  unfold tailBounds? at hfirst
  split at hfirst
  · cases hfirst
    cases htail
    rw [pointOf_one, toNat_ofNat_of_isValidChar (.inl (by omega)), if_pos (by omega),
      hbyte first _ rfl]
  split at hfirst
  · cases hfirst
  split at hfirst
  · cases hfirst
    obtain _ | ⟨hb, _ | _⟩ := htail
    rename_i b
    rw [pointOf_two, toNat_ofNat_of_isValidChar (.inl (by omega)), if_neg (by omega),
      if_pos (by omega), hbyte first _ (by omega), hbyte b _ (by omega)]
  split at hfirst
  · cases hfirst
    obtain _ | ⟨hb, _ | ⟨hc, _ | _⟩⟩ := htail
    rename_i b c
    have hbounds : 0x80 ≤ b.toNat ∧ b.toNat ≤ 0xbf ∧ (first.toNat = 0xe0 → 0xa0 ≤ b.toNat) ∧
        (first.toNat = 0xed → b.toNat ≤ 0x9f) := by
      dsimp only at hb
      split_ifs at hb <;> omega
    have hvalid : (pointOf first [b, c]).isValidChar := by
      rw [pointOf_three, Nat.isValidChar]
      omega
    rw [toNat_ofNat_of_isValidChar hvalid, pointOf_three, if_neg (by omega), if_neg (by omega),
      if_pos (by omega), hbyte first _ (by omega), hbyte b _ (by omega), hbyte c _ (by omega)]
  split at hfirst
  · cases hfirst
    obtain _ | ⟨hb, _ | ⟨hc, _ | ⟨hd, _ | _⟩⟩⟩ := htail
    rename_i b c d
    have hbounds : 0x80 ≤ b.toNat ∧ b.toNat ≤ 0xbf ∧ (first.toNat = 0xf0 → 0x90 ≤ b.toNat) ∧
        (first.toNat = 0xf4 → b.toNat ≤ 0x8f) := by
      dsimp only at hb
      split_ifs at hb <;> omega
    have hvalid : (pointOf first [b, c, d]).isValidChar := by
      rw [pointOf_four, Nat.isValidChar]
      omega
    rw [toNat_ofNat_of_isValidChar hvalid, pointOf_four, if_neg (by omega), if_neg (by omega),
      if_neg (by omega), hbyte first _ (by omega), hbyte b _ (by omega), hbyte c _ (by omega),
      hbyte d _ (by omega)]
  · cases hfirst

/-! ## Pieces -/

theorem takeBetween_append {bounds : List (Nat × Nat)} {tail : RawText} (h : AreBetween bounds tail)
    (rest : RawText) : takeBetween bounds (tail ++ rest) = tail := by
  induction h with
  | nil => cases rest <;> rfl
  | cons hb _ ih => simp [takeBetween, hb, ih]

theorem takeBetween_isPrefix (bounds : List (Nat × Nat)) (rest : RawText) :
    takeBetween bounds rest <+: rest := by
  induction bounds generalizing rest with
  | nil => cases rest <;> exact List.nil_prefix
  | cons bound bounds ih =>
    cases rest with
    | nil => exact List.nil_prefix
    | cons b rest =>
      unfold takeBetween
      split
      · exact List.cons_prefix_cons.2 ⟨rfl, ih rest⟩
      · exact List.nil_prefix

theorem areBetween_takeBetween {bounds : List (Nat × Nat)} {rest : RawText}
    (h : (takeBetween bounds rest).length = bounds.length) :
    AreBetween bounds (takeBetween bounds rest) := by
  induction bounds generalizing rest with
  | nil => cases rest <;> exact .nil
  | cons bound bounds ih =>
    cases rest with
    | nil => cases h
    | cons b rest =>
      unfold takeBetween at h ⊢
      split
      · rename_i hb
        rw [if_pos hb] at h
        exact .cons (by simpa using hb) (ih (by simpa using h))
      · rename_i hb
        rw [if_neg hb] at h
        cases h

/-- Bytes that belong to a piece read before are passed over. -/
theorem piecesAfter_length (front rest : RawText) :
    piecesAfter front.length (front ++ rest) = pieces rest := by
  induction front with
  | nil => rfl
  | cons b front ih => exact ih

/-- The bytes of a character are read as the character. -/
theorem pieces_utf8EncodeChar_append (c : Char) (rest : RawText) :
    pieces (String.utf8EncodeChar c ++ rest) = .char c :: pieces rest := by
  obtain ⟨first, tail, bounds, hencode, hfirst, htail, hpoint⟩ := exists_tail_utf8EncodeChar c
  have hnext : nextPiece first (tail ++ rest) = (.char c, tail.length) := by
    simp only [nextPiece, hfirst, takeBetween_append htail, htail.length_eq, if_true, hpoint,
      Char.ofNat_toNat]
  rw [hencode, List.cons_append]
  show (nextPiece first (tail ++ rest)).1 :: piecesAfter (nextPiece first (tail ++ rest)).2 _ = _
  rw [hnext, piecesAfter_length]

/-- A text falls into its characters. -/
theorem pieces_bytes (s : String) : pieces (bytes s) = s.toList.map .char := by
  rw [bytes_eq]
  induction s.toList with
  | nil => rfl
  | cons c s ih => rw [List.flatMap_cons, pieces_utf8EncodeChar_append, ih, List.map_cons]

/-- The bytes of a piece. -/
def Piece.bytes : Piece → RawText
  | .char c => String.utf8EncodeChar c
  | .broken bytes => bytes

/-- The next piece holds the first byte and as many as it takes after it. -/
theorem bytes_nextPiece (first : UInt8) (rest : RawText) :
    (nextPiece first rest).1.bytes = first :: rest.take (nextPiece first rest).2 := by
  unfold nextPiece
  split
  · rfl
  · rename_i bounds hfirst
    have htake : rest.take (takeBetween bounds rest).length = takeBetween bounds rest :=
      (List.prefix_iff_eq_take.1 (takeBetween_isPrefix bounds rest)).symm
    dsimp only
    split
    · rename_i hlength
      dsimp only [Piece.bytes]
      rw [utf8EncodeChar_pointOf hfirst (areBetween_takeBetween hlength), htake]
    · dsimp only [Piece.bytes]
      rw [htake]

theorem piecesAfter_eq (taken : Nat) (r : RawText) :
    piecesAfter taken r = pieces (r.drop taken) := by
  induction taken generalizing r with
  | zero => rfl
  | succ taken ih =>
    cases r with
    | nil => rfl
    | cons b r => exact ih r

/-- The pieces put together are the bytes again. -/
theorem flatMap_bytes_pieces (r : RawText) : r.pieces.flatMap Piece.bytes = r := by
  induction hlength : r.length using Nat.strongRecOn generalizing r with
  | _ n ih =>
    cases r with
    | nil => rfl
    | cons first rest =>
      show (((nextPiece first rest).1 :: piecesAfter (nextPiece first rest).2 rest).flatMap
        Piece.bytes) = _
      rw [List.flatMap_cons, bytes_nextPiece, piecesAfter_eq,
        ih _ (by rw [← hlength, List.length_drop, List.length_cons]; omega) _ rfl,
        List.cons_append, List.take_append_drop]

/-! ## Characters of ASCII -/

/-- No byte below those of ASCII goes on with a character. -/
theorem le_of_mem_tailBounds? {first : Nat} {bounds : List (Nat × Nat)}
    (h : tailBounds? first = some bounds) : ∀ bound ∈ bounds, 0x80 ≤ bound.1 := by
  unfold tailBounds? at h
  split_ifs at h <;> cases h <;> simp

theorem takeBetween_append_ascii {bounds : List (Nat × Nat)} (h : ∀ bound ∈ bounds, 0x80 ≤ bound.1)
    {a : UInt8} (ha : a.toNat < 0x80) (front rest : RawText) :
    takeBetween bounds (front ++ a :: rest) = takeBetween bounds front := by
  induction bounds generalizing front with
  | nil => cases front <;> rfl
  | cons bound bounds ih =>
    cases front with
    | nil =>
      have hbelow : ¬bound.1 ≤ a.toNat := by
        have := h bound List.mem_cons_self
        omega
      simp [takeBetween, hbelow]
    | cons b front =>
      simp only [List.cons_append, takeBetween,
        ih fun bound hb => h bound (List.mem_cons_of_mem _ hb)]

/-- A byte of ASCII is a character of its own, and what stands around it is read apart. -/
theorem pieces_append_ascii {a : UInt8} (ha : a.toNat < 0x80) (front rest : RawText) :
    pieces (front ++ a :: rest) = pieces front ++ .char (Char.ofNat a.toNat) :: pieces rest := by
  induction hlength : front.length using Nat.strongRecOn generalizing front with
  | _ n ih =>
    cases front with
    | nil =>
      have hnext : nextPiece a rest = (.char (Char.ofNat a.toNat), 0) := by
        have hbounds : tailBounds? a.toNat = some [] := by rw [tailBounds?, if_pos ha]
        have htake : takeBetween [] rest = [] := by cases rest <;> rfl
        simp only [nextPiece, hbounds, htake, List.length_nil, if_true, pointOf_one]
      show (nextPiece a rest).1 :: piecesAfter (nextPiece a rest).2 rest = _
      rw [hnext]
      rfl
    | cons first more =>
      have hnext : nextPiece first (more ++ a :: rest) = nextPiece first more := by
        unfold nextPiece
        split
        · rfl
        · rename_i hbounds
          rw [takeBetween_append_ascii (le_of_mem_tailBounds? hbounds) ha]
      have hwithin : (nextPiece first more).2 ≤ more.length := by
        unfold nextPiece
        split
        · exact Nat.zero_le _
        · dsimp only
          split <;> exact (takeBetween_isPrefix _ _).length_le
      show (nextPiece first (more ++ a :: rest)).1 ::
        piecesAfter (nextPiece first (more ++ a :: rest)).2 (more ++ a :: rest) =
          (nextPiece first more).1 :: piecesAfter (nextPiece first more).2 more ++ _
      rw [hnext, piecesAfter_eq, piecesAfter_eq, List.drop_append_of_le_length hwithin,
        ih _ (by rw [← hlength, List.length_drop, List.length_cons]; omega) _ rfl]
      rfl

/-! ## What is shown -/

/-- A text is shown as it is. -/
@[simp] theorem shown_bytes (s : String) : shown (bytes s) = s := by
  rw [shown, pieces_bytes, List.map_map, show Piece.shown ∘ Piece.char = id from rfl, List.map_id,
    String.ofList_toList]

@[simp] theorem isText_bytes (s : String) : isText (bytes s) = true := by
  rw [isText, pieces_bytes, List.all_map]
  exact List.all_eq_true.2 fun _ _ => rfl

/-- Bytes are a text exactly if they are the bytes of what is shown for them. -/
theorem bytes_shown_iff {r : RawText} : bytes r.shown = r ↔ r.isText = true := by
  refine ⟨fun h => h ▸ isText_bytes r.shown, fun h => ?_⟩
  have hpieces : ∀ p ∈ r.pieces, String.utf8EncodeChar p.shown = p.bytes := fun p hp => by
    have hchar : p.isChar = true := List.all_eq_true.1 h p hp
    cases p with
    | char c => rfl
    | broken b => cases hchar
  rw [bytes_eq, shown, String.toList_ofList, List.flatMap_map, List.flatMap_congr hpieces,
    flatMap_bytes_pieces]

theorem isText_iff_exists {r : RawText} : r.isText = true ↔ ∃ s, r = bytes s :=
  ⟨fun h => ⟨r.shown, (bytes_shown_iff.2 h).symm⟩, fun ⟨s, h⟩ => h ▸ isText_bytes s⟩

theorem text?_eq_some_iff {r : RawText} {s : String} : r.text? = some s ↔ r = bytes s := by
  unfold text?
  constructor
  · intro h
    split at h
    · rename_i htext
      cases h
      exact (bytes_shown_iff.2 htext).symm
    · cases h
  · rintro rfl
    rw [isText_bytes, if_pos rfl, shown_bytes]

theorem shown_append_ascii {a : UInt8} (ha : a.toNat < 0x80) (front rest : RawText) :
    shown (front ++ a :: rest) =
      shown front ++ String.singleton (Char.ofNat a.toNat) ++ shown rest := by
  refine String.toList_inj.1 ?_
  simp only [shown, pieces_append_ascii ha, List.map_append, List.map_cons, Piece.shown,
    String.toList_ofList, String.toList_append, String.toList_singleton, List.append_assoc,
    List.singleton_append]

/-- A character of ASCII is shown where its byte is. -/
theorem mem_shown_iff {a : UInt8} (ha : a.toNat < 0x80) {r : RawText} :
    Char.ofNat a.toNat ∈ r.shown.toList ↔ a ∈ r := by
  have hvalid : (Char.ofNat a.toNat).toNat = a.toNat :=
    toNat_ofNat_of_isValidChar (.inl (by omega))
  constructor
  · intro h
    rw [shown, String.toList_ofList] at h
    obtain ⟨p, hp, hshown⟩ := List.mem_map.1 h
    have hmem : a ∈ p.bytes := by
      cases p with
      | char c =>
        cases hshown
        show a ∈ String.utf8EncodeChar (Char.ofNat a.toNat)
        unfold String.utf8EncodeChar
        simp only [show ∀ c : Char, c.val.toNat = c.toNat from fun _ => rfl, hvalid]
        rw [if_pos (by omega), UInt8.ofNat_toNat]
        exact List.mem_cons_self
      | broken b =>
        have hreplaced : ('\ufffd').toNat = a.toNat := hvalid ▸ congrArg Char.toNat hshown
        rw [← hreplaced] at ha
        exact absurd ha (by decide)
    rw [← flatMap_bytes_pieces r]
    exact List.mem_flatMap.2 ⟨p, hp, hmem⟩
  · intro h
    obtain ⟨front, rest, rfl⟩ := List.append_of_mem h
    rw [shown_append_ascii ha]
    simp

/-- What is shown without a replacement character is a text. -/
theorem isText_of_notMem {r : RawText} (h : '\ufffd' ∉ r.shown.toList) : r.isText = true := by
  refine List.all_eq_true.2 fun p hp => ?_
  cases p with
  | char c => rfl
  | broken b =>
    refine absurd ?_ h
    rw [shown, String.toList_ofList]
    exact List.mem_map.2 ⟨_, hp, rfl⟩

theorem bytes_injective : Function.Injective bytes :=
  Function.LeftInverse.injective shown_bytes

theorem shown_intercalate {a : UInt8} (ha : a.toNat < 0x80) (rs : List RawText) :
    shown ([a].intercalate rs) =
      joinWith (String.singleton (Char.ofNat a.toNat)) (rs.map shown) := by
  induction rs with
  | nil => rfl
  | cons first rest ih =>
    cases rest with
    | nil =>
      rw [List.intercalate_singleton, List.map_singleton, joinWith, String.intercalate_singleton]
    | cons next rest =>
      rw [List.intercalate_cons_cons, List.append_assoc, List.singleton_append,
        shown_append_ascii ha, ih]
      simp only [joinWith, List.map_cons, String.intercalate_cons_cons]

theorem isText_append_ascii {a : UInt8} (ha : a.toNat < 0x80) (front rest : RawText) :
    isText (front ++ a :: rest) = (isText front && isText rest) := by
  simp only [isText, pieces_append_ascii ha, List.all_append, List.all_cons, Piece.isChar,
    Bool.true_and]

/-- What is joined by characters of ASCII is a text if and only if all that is joined are
texts. -/
theorem isText_intercalate {a : UInt8} (ha : a.toNat < 0x80) (rs : List RawText) :
    isText ([a].intercalate rs) = rs.all isText := by
  induction rs with
  | nil => rfl
  | cons first rest ih =>
    cases rest with
    | nil => rw [List.intercalate_singleton, List.all_cons, List.all_nil, Bool.and_true]
    | cons next rest =>
      rw [List.intercalate_cons_cons, List.append_assoc, List.singleton_append,
        isText_append_ascii ha, ih, List.all_cons (a := first)]

/-! ## What is read again -/

/-- What bytes become when the text that is shown for them is kept in their place. -/
def reread (r : RawText) : RawText := bytes r.shown

@[simp] theorem shown_reread (r : RawText) : r.reread.shown = r.shown := shown_bytes r.shown

theorem reread_eq_self_iff {r : RawText} : r.reread = r ↔ r.isText = true := bytes_shown_iff

/-- Only a text without a replacement character is shown for itself alone. -/
theorem reread_eq_bytes_iff {r : RawText} {s : String} (hs : '\ufffd' ∉ s.toList) :
    r.reread = bytes s ↔ r = bytes s := by
  refine ⟨fun h => ?_, fun h => h ▸ congrArg bytes (shown_bytes s)⟩
  have hshown : r.shown = s := bytes_injective h
  have htext : r.isText = true := isText_of_notMem (hshown ▸ hs)
  rw [← reread_eq_self_iff.2 htext, h]

theorem mem_reread_iff {a : UInt8} (ha : a.toNat < 0x80) {r : RawText} : a ∈ r.reread ↔ a ∈ r := by
  rw [← mem_shown_iff ha, shown_reread, mem_shown_iff ha]

end Marginalia.RawText
