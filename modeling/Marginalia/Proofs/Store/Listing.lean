import Marginalia.Proofs.Collection.Sorted
import Marginalia.Proofs.Store.Lifetime
import Marginalia.Proofs.Store.Readable
import Marginalia.Proofs.Text.Bytes
import Mathlib.Data.List.Infix

set_option autoImplicit false

/-!
# Listings

When the tables are whole and all rows can be read, the listing of all notes shows every
row once, and its places rise strictly.  Each other query shows the part of this listing
that passes its test, whichever column or table the test looks at.
-/

namespace Marginalia

/-! ## The order of places -/

namespace Location

/-- The order of places in listings. -/
def order : Location → Location → Ordering := compareLex (compareOn Prod.fst) (compareOn Prod.snd)

instance : Std.TransCmp order :=
  inferInstanceAs (Std.TransCmp (compareLex (compareOn Prod.fst) (compareOn Prod.snd)))

/-- Whether a place comes before another one: by the bytes of the path of its file, and in
one file by its line. -/
def Precedes (p q : Location) : Prop :=
  Text.bytes p.1 < Text.bytes q.1 ∨ p.1 = q.1 ∧ p.2 < q.2

theorem precedes_of_order {p q : Location} (hle : (order p q).isLE = true) (hne : p ≠ q) :
    p.Precedes q := by
  change ((compare p.1 q.1).then (compare p.2 q.2)).isLE = true at hle
  cases hfile : compare p.1 q.1 with
  | lt => exact .inl ((Text.bytes_lt_iff _ _).2 (compareOfLessAndEq_eq_lt.1 hfile))
  | eq =>
    have hsame : p.1 = q.1 := Std.LawfulEqOrd.compare_eq_iff_eq.1 hfile
    rw [hfile, Ordering.eq_then, Std.isLE_compare] at hle
    refine .inr ⟨hsame, UInt32.lt_of_le_of_ne hle fun hline => hne ?_⟩
    exact Prod.ext hsame hline
  | gt =>
    rw [hfile] at hle
    cases hle

theorem Precedes.ne {p q : Location} (h : p.Precedes q) : p ≠ q := by
  rintro rfl
  rcases h with hbytes | ⟨-, hline⟩
  · exact List.lt_irrefl _ hbytes
  · exact UInt32.lt_irrefl _ hline

/-- Different places that are sorted rise strictly. -/
theorem pairwise_precedes {ps : List Location} (h : ps.Nodup) :
    (ps.mergeSort fun p q => (order p q).isLE).Pairwise Precedes := by
  have hsorted := Sorted.pairwise_mergeSort_isLE order ps
  have hnodup : (ps.mergeSort fun p q => (order p q).isLE).Nodup :=
    (List.mergeSort_perm ps _).nodup_iff.2 h
  exact (hsorted.and (List.nodup_iff_pairwise_ne.1 hnodup)).imp
    fun hboth => precedes_of_order hboth.1 hboth.2

end Location

namespace Row

/-- The place that a row as the store writes it is for. -/
def location (r : Row) : Location :=
  match r.line with
  | .whole n => (r.filepath, .ofNat n.toNat)
  | _ => (r.filepath, 0)

theorem IsWritten.place_eq {r : Row} (h : r.IsWritten) :
    r.place = (r.location.1, .ofLine r.location.2) := by
  obtain ⟨l, hl⟩ := h.line
  rw [place, location, hl, LineCell.ofLine]
  simp only [Int.toNat_natCast, UInt32.ofNat_toNat, LineCell.ofLine]

/-- A row is read as a note for its place. -/
theorem location_of_read {r : Row} {text : Option String} {n : Note} (h : r.read text = .ok n) :
    r.location = n.place := by
  obtain ⟨⟨-, hline, -⟩, hfile, -⟩ := read_eq_ok_iff.1 h
  unfold LineCell.read at hline
  split at hline
  · rename_i k hk
    split at hline
    · rw [location, hk, ← hfile]
      exact Prod.ext rfl (Except.ok.inj hline)
    · cases hline
  · cases hline

theorem IsWritten.location_of_isAt {r : Row} (h : r.IsWritten) {filepath : String}
    {line : UInt32} (hat : r.isAt filepath (.ofLine line) = true) :
    r.location = (filepath, line) := by
  obtain ⟨hfile, hline⟩ := Prod.mk.inj (h.place_eq.symm.trans ((h.isAt_iff _ _).1 hat))
  refine Prod.ext hfile ?_
  rw [← compare_ofLine_eq_iff, hline]
  exact (compare_ofLine_eq_iff line line).2 rfl

/-- Rows as the store writes them are in the order of their places. -/
theorem IsWritten.notAfter_eq {q r : Row} (hq : q.IsWritten) (hr : r.IsWritten) :
    q.notAfter r = (Location.order q.location r.location).isLE := by
  obtain ⟨hqfile, hqline⟩ := Prod.mk.inj hq.place_eq
  obtain ⟨hrfile, hrline⟩ := Prod.mk.inj hr.place_eq
  rw [notAfter, hqfile, hqline, hrfile, hrline]
  have hlines : compare (q.location.2.toNat : Int) r.location.2.toNat =
      compare q.location.2 r.location.2 := by
    change compareOfLessAndEq _ _ = compareOfLessAndEq _ _
    simp only [compareOfLessAndEq, Int.ofNat_lt, Int.ofNat_inj, UInt32.lt_iff_toNat_lt,
      UInt32.toNat_inj]
  simp only [LineCell.ofLine, LineCell.compare, hlines]
  rfl

end Row

/-! ## Reading some of the rows -/

/-- What is read of the members that pass a test is what passes it of all that is read. -/
theorem mapM_filter {α β ε : Type} {f : α → Except ε β} {test : α → Bool} {keep : β → Bool}
    {l : List α} {out : List β} (h : l.mapM f = .ok out)
    (hsame : ∀ a ∈ l, ∀ b, f a = .ok b → test a = keep b) :
    (l.filter test).mapM f = .ok (out.filter keep) := by
  rw [mapM_eq_ok_iff] at h ⊢
  induction h with
  | nil => exact .nil
  | @cons a b l out hb _ ih =>
    have hrest := ih fun c hc => hsame c (List.mem_cons_of_mem _ hc)
    rw [List.filter_cons, List.filter_cons, hsame a List.mem_cons_self b hb]
    split
    · exact .cons hb hrest
    · exact hrest

namespace Store

variable {s : Store} {notes : List Note}

/-- A query shows the part of the listing that passes its test. -/
theorem select_of_all (hall : s.all = .ok notes) {test : Row → Bool} {keep : Note → Bool}
    (hsame : ∀ r ∈ s.notes, ∀ n, s.readRow r = .ok n → test r = keep n) :
    s.select test = .ok (notes.filter keep) := by
  rw [all, select, List.filter_true] at hall
  exact mapM_filter hall fun r hr => hsame r (List.mem_mergeSort.1 hr)

theorem byFile_of_all (hall : s.all = .ok notes) (filepath : String) :
    s.byFile filepath = .ok (notes.filter (·.filepath == filepath)) := by
  refine select_of_all hall fun r _ n hread => ?_
  rw [(Row.read_eq_ok_iff.1 (readRow_eq_ok_iff.1 hread)).2.1]

theorem byKind_of_all (hall : s.all = .ok notes) (kind : Kind) :
    s.byKind kind = .ok (notes.filter (·.kind == kind)) := by
  refine select_of_all hall fun r _ n hread => ?_
  have hkind : r.kind = n.kind.name :=
    (Kind.ofName?_eq_some_iff _ _).1 (Row.read_eq_ok_iff.1 (readRow_eq_ok_iff.1 hread)).1.2.2.1
  have hname : Kind.ofName? n.kind.name = some n.kind := (Kind.ofName?_eq_some_iff _ _).2 rfl
  rw [hkind, Bool.eq_iff_iff, beq_iff_eq, beq_iff_eq, ← Kind.ofName?_eq_some_iff, hname,
    Option.some.injEq]

/-- The listing shows every row once. -/
theorem perm_of_all (hall : s.all = .ok notes) :
    (s.notes.map s.readRow).Perm (notes.map .ok) := by
  rw [all, select, List.filter_true] at hall
  have hread : s.ordered.map s.readRow = notes.map .ok := by
    rw [← List.forall₂_eq_eq_eq, List.forall₂_map_left_iff, List.forall₂_map_right_iff]
    exact mapM_eq_ok_iff.1 hall
  rw [← hread]
  exact ((List.mergeSort_perm s.notes _).map _).symm

theorem mem_of_all (hall : s.all = .ok notes) {n : Note} : n ∈ notes ↔ s.Reads n := by
  have hmem : Except.ok n ∈ s.notes.map s.readRow ↔ Except.ok n ∈ notes.map Except.ok :=
    (perm_of_all hall).mem_iff
  rw [List.mem_map_of_injective fun _ _ => Except.ok.inj, List.mem_map] at hmem
  exact hmem.symm

namespace Intact

/-- What a query shows is in the order of places, which rise strictly. -/
theorem pairwise_of_select (h : s.Intact) {test : Row → Bool}
    (hselect : s.select test = .ok notes) :
    (notes.map Note.place).Pairwise Location.Precedes := by
  have hplaces : (s.notes.map Row.location).Nodup := by
    refine List.Nodup.of_map (fun p : Location => (p.1, LineCell.ofLine p.2)) ?_
    rw [List.map_map]
    have hback := List.map_congr_left fun r hr => (h.written r hr).place_eq
    exact hback ▸ h.places
  have hsorted : s.ordered.map Row.location =
      (s.notes.map Row.location).mergeSort fun p q => (Location.order p q).isLE :=
    List.map_mergeSort fun q hq r hr => (h.written q hq).notAfter_eq (h.written r hr)
  have hsame : notes.map Note.place = (s.ordered.filter test).map Row.location := by
    rw [← List.forall₂_eq_eq_eq, List.forall₂_map_left_iff, List.forall₂_map_right_iff]
    refine (mapM_eq_ok_iff.1 hselect).flip.imp fun n r hread => ?_
    exact (Row.location_of_read (readRow_eq_ok_iff.1 hread)).symm
  rw [hsame]
  refine List.Pairwise.sublist (List.filter_sublist.map Row.location) ?_
  rw [hsorted]
  exact Location.pairwise_precedes hplaces

theorem pairwise_of_all (h : s.Intact) (hall : s.all = .ok notes) :
    (notes.map Note.place).Pairwise Location.Precedes :=
  h.pairwise_of_select hall

/-- No query shows two notes for one place. -/
theorem nodup_places_of_select (h : s.Intact) {test : Row → Bool}
    (hselect : s.select test = .ok notes) : (notes.map Note.place).Nodup :=
  List.nodup_iff_pairwise_ne.2 ((h.pairwise_of_select hselect).imp fun hlt => hlt.ne)

/-- The text is looked for in the text row of a note, which it always has. -/
theorem search_of_all (h : s.Intact) (hall : s.all = .ok notes) (query : String) :
    s.search query = .ok (notes.filter fun n => matchesText n.text query) := by
  refine select_of_all hall fun r hr n hread => ?_
  have hid : r.id ∈ s.texts.map (·.noteId) := h.texts ▸ List.mem_map_of_mem hr
  obtain ⟨x, hx, hxid⟩ := List.mem_map.1 hid
  have htext : s.textOf? r.id = some x.text := hxid ▸ h.textOf?_eq hx
  have hread' := (Row.read_eq_ok_iff.1 (readRow_eq_ok_iff.1 hread)).2.2.1
  rw [htext, Option.getD_some] at hread'
  rw [htext, Option.any_some, hread']

/-- The note of the listing at a place is the one that is found there. -/
theorem get_eq_ok_iff_of_all (h : s.Intact) (hall : s.all = .ok notes) {filepath : String}
    {line : UInt32} {n : Note} :
    s.get filepath line = .ok n ↔ n ∈ notes ∧ n.place = (filepath, line) := by
  rw [mem_of_all hall]
  constructor
  · intro hget
    obtain ⟨r, hr, hat, hread⟩ := exists_row_of_get hget
    refine ⟨⟨r, hr, hread⟩, ?_⟩
    rw [← Row.location_of_read (readRow_eq_ok_iff.1 hread)]
    exact (h.written r hr).location_of_isAt hat
  · rintro ⟨⟨r, hr, hread⟩, hplace⟩
    obtain ⟨hfile, hline⟩ := Prod.mk.inj hplace
    rw [h.get_eq hr (hfile ▸ hline ▸ h.place_eq hr hread), hread]

/-- Nothing is found at a place exactly when the listing has no note there. -/
theorem get_eq_notFound_iff_of_all (h : s.Intact) (hall : s.all = .ok notes) {filepath : String}
    {line : UInt32} :
    s.get filepath line = .error (.notFound filepath line) ↔
      ∀ n ∈ notes, n.place ≠ (filepath, line) := by
  constructor
  · intro hget n hn hplace
    rw [(h.get_eq_ok_iff_of_all hall).2 ⟨hn, hplace⟩] at hget
    cases hget
  · intro hnone
    cases hrow : s.rowAt? filepath line with
    | none => rw [get, hrow]
    | some r =>
      obtain ⟨hr, hat⟩ := mem_of_rowAt? hrow
      obtain ⟨n, hread⟩ := exists_readRow_iff.2 (isReadable_iff.1 ⟨notes, hall⟩ r hr)
      have hplace := (h.written r hr).location_of_isAt hat
      rw [Row.location_of_read (readRow_eq_ok_iff.1 hread)] at hplace
      exact absurd hplace (hnone n ((mem_of_all hall).2 ⟨r, hr, hread⟩))

end Intact

/-! ## All queries -/

theorem matchesText_eq (text query : String) :
    matchesText text query =
      decide (Text.lowerAscii query.toList <:+: Text.lowerAscii text.toList) := by
  rw [Bool.eq_iff_iff, decide_eq_true_iff, matchesText, Text.contains_iff]
  exact exists_congr fun before => exists_congr fun after => eq_comm

/-- Notes of which the queries of a store show parts. -/
structure Views (s : Store) (notes : List Note) : Prop where
  all : s.all = .ok notes
  /-- every row is shown, and shown once -/
  rows : (s.notes.map s.readRow).Perm (notes.map .ok)
  /-- the places rise strictly -/
  rising : (notes.map Note.place).Pairwise Location.Precedes
  byFile : ∀ filepath, s.byFile filepath = .ok (notes.filter (·.filepath == filepath))
  byKind : ∀ kind, s.byKind kind = .ok (notes.filter (·.kind == kind))
  /-- a text is looked for with the letters A to Z in either case -/
  search : ∀ query, s.search query = .ok (notes.filter fun n =>
    Text.lowerAscii query.toList <:+: Text.lowerAscii n.text.toList)
  /-- the empty text is found everywhere -/
  search_empty : s.search "" = .ok notes
  found : ∀ filepath line n,
    s.get filepath line = .ok n ↔ n ∈ notes ∧ n.place = (filepath, line)
  missing : ∀ filepath line, s.get filepath line = .error (.notFound filepath line) ↔
    ∀ n ∈ notes, n.place ≠ (filepath, line)
  count : s.count = notes.length

/-- Whole tables that can be listed show the listing in all queries. -/
theorem Intact.views (h : s.Intact) (hall : s.all = .ok notes) : s.Views notes := by
  have hsearch := h.search_of_all hall
  have hrows := perm_of_all hall
  simp only [matchesText_eq] at hsearch
  refine ⟨hall, hrows, h.pairwise_of_all hall, byFile_of_all hall, byKind_of_all hall, hsearch, ?_,
    fun _ _ _ => h.get_eq_ok_iff_of_all hall, fun _ _ => h.get_eq_notFound_iff_of_all hall, ?_⟩
  · rw [hsearch, List.filter_eq_self.2]
    exact fun n _ => decide_eq_true List.nil_infix
  · have hlength := hrows.length_eq
    rwa [List.length_map, List.length_map] at hlength

end Store

/-! ## Stores with a few notes -/

namespace Operation

/-- Notes are added one after the other, and nothing else happens. -/
def creating (notes : List Note) : List (Operation × Mishaps) :=
  notes.map fun n => (.create n, [])

theorem stayWithinYears_creating {notes : List Note}
    (h : ∀ n ∈ notes, (n.createdAt.IsRepresentable ∧ n.updatedAt.IsRepresentable) ∧
      n.TimesWithin 0 9999) (s : Store) : StayWithinYears (creating notes) s := by
  induction notes generalizing s with
  | nil => trivial
  | cons n notes ih =>
    exact ⟨h n List.mem_cons_self, ih (fun m hm => h m (List.mem_cons_of_mem n hm)) _⟩

/-- A new store to which notes with good times were added can be read. -/
theorem isReadable_creating (notes : List Note)
    (h : ∀ n ∈ notes, (n.createdAt.IsRepresentable ∧ n.updatedAt.IsRepresentable) ∧
      n.TimesWithin 0 9999) : (run (creating notes)).IsReadable := by
  have hempty : Store.empty.IsReadable :=
    Store.isReadable_iff.2 fun r hr => absurd hr List.not_mem_nil
  exact readable_run hempty (stayWithinYears_creating h .empty)

/-- Two notes of one file are added, the one of the later line first. -/
def twoNotes : List (Operation × Mishaps) :=
  [(.create { strayNote with line := 10, kind := .note }, []),
   (.create { strayNote with line := 9, id := .ofRandom 1 }, [])]

theorem isReadable_twoNotes : (run twoNotes).IsReadable :=
  isReadable_creating [{ strayNote with line := 10, kind := .note },
    { strayNote with line := 9, id := .ofRandom 1 }] (by decide)

end Operation

end Marginalia
