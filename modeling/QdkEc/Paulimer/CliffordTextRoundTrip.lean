import QdkEc.Paulimer.CliffordText

/-!
# Round trips through the text of a Clifford unitary

This module proves that the parser of a Clifford unitary gives a printed one
back, and that a text that it accepts lists the images of the Clifford unitary
that it returns.  Twice as many items as qubits leave no room for two images of
one generator, because a generator without an image makes the tableau invalid.
-/

namespace QdkEc

open PhasedPauli List StoredPauli PauliUnitary
open scoped Memberwise

namespace CliffordUnitary

/-- The generator of a key, `X` on a qubit or `Z` on a qubit. -/
def generator : Bool × ℕ → PhasedPauli
  | (true, q) => X q
  | (false, q) => Z q

/-- Overwrite the stored preimage of a generator. -/
def setPregeneratorImage (C : CliffordUnitary) (key : Bool × ℕ) (p : PauliUnitary) :
    CliffordUnitary :=
  if key.1 then C.setPreimageX key.2 p else C.setPreimageZ key.2 p

/-- The stored preimage of a generator. -/
def preimageViewOf (C : CliffordUnitary) (key : Bool × ℕ) : PauliUnitary :=
  if key.1 then C.preimageXView key.2 else C.preimageZView key.2

@[simp]
theorem numQubits_setPregeneratorImage (C : CliffordUnitary) (key : Bool × ℕ) (p : PauliUnitary) :
    (C.setPregeneratorImage key p).numQubits = C.numQubits := by
  rcases key with ⟨_ | _, q⟩ <;> rfl

variable {C D : CliffordUnitary} {key : Bool × ℕ}

theorem preimageViewOf_setPregeneratorImage {key' : Bool × ℕ}
    (hkey : key.2 < C.numQubits) (hkey' : key'.2 < C.numQubits) (p : PauliUnitary) :
    (C.setPregeneratorImage key p).preimageViewOf key' =
      if key' = key then p else C.preimageViewOf key' := by
  obtain ⟨_ | _, q⟩ := key <;> obtain ⟨_ | _, q'⟩ := key'
  · simpa [setPregeneratorImage, preimageViewOf] using preimageZView_setPreimageZ hkey hkey' p
  · simpa [setPregeneratorImage, preimageViewOf] using preimageXView_setPreimageZ hkey hkey' p
  · simpa [setPregeneratorImage, preimageViewOf] using preimageZView_setPreimageX hkey hkey' p
  · simpa [setPregeneratorImage, preimageViewOf] using preimageXView_setPreimageX hkey hkey' p

theorem lift_generator (hkey : key.2 < C.numQubits) :
    C.frame.lift (generator key) = (C.preimageViewOf key).toPhased := by
  obtain ⟨_ | _, q⟩ := key
  · rw [generator, GeneratorFrame.lift_Z, frame_z hkey]
    rfl
  · rw [generator, GeneratorFrame.lift_X, frame_x hkey]
    rfl

theorem preimageViewOf_zero (n : ℕ) (key : Bool × ℕ) :
    (zero n).preimageViewOf key = neutralElement := by
  obtain ⟨_ | _, q⟩ := key
  · exact preimageZView_zero
  · exact preimageXView_zero

/-- Overwrite stored preimages one after the other. -/
def setPreimages (C : CliffordUnitary) (entries : List ((Bool × ℕ) × PauliUnitary)) :
    CliffordUnitary :=
  entries.foldl (fun C entry => C.setPregeneratorImage entry.1 entry.2) C

@[simp]
theorem numQubits_setPreimages (C : CliffordUnitary) (entries : List ((Bool × ℕ) × PauliUnitary)) :
    (C.setPreimages entries).numQubits = C.numQubits := by
  induction entries generalizing C with
  | nil => rfl
  | cons entry entries ih => exact (ih _).trans (numQubits_setPregeneratorImage C entry.1 entry.2)

section SetPreimages

variable {C : CliffordUnitary} {entries : List ((Bool × ℕ) × PauliUnitary)}
  (hlt : ∀ entry ∈ entries, entry.1.2 < C.numQubits) {key : Bool × ℕ} (hkey : key.2 < C.numQubits)

include hlt hkey

theorem preimageViewOf_setPreimages_of_not_mem (habsent : key ∉ entries.map Prod.fst) :
    (C.setPreimages entries).preimageViewOf key = C.preimageViewOf key := by
  induction entries generalizing C with
  | nil => rfl
  | cons entry entries ih =>
    rw [map_cons, mem_cons, not_or] at habsent
    have hrest := ih (C := C.setPregeneratorImage entry.1 entry.2)
      (fun e he => by simpa using hlt e (by simp [he])) (by simpa using hkey) habsent.2
    rw [preimageViewOf_setPregeneratorImage (hlt entry (by simp)) hkey, if_neg habsent.1] at hrest
    exact hrest

theorem preimageViewOf_setPreimages_mem :
    (C.setPreimages entries).preimageViewOf key = C.preimageViewOf key ∨
      ∃ entry ∈ entries, (C.setPreimages entries).preimageViewOf key = entry.2 := by
  induction entries generalizing C with
  | nil => exact .inl rfl
  | cons entry entries ih =>
    have hrest := ih (C := C.setPregeneratorImage entry.1 entry.2)
      (fun e he => by simpa using hlt e (by simp [he])) (by simpa using hkey)
    rcases hrest with hkeep | ⟨e, he, hview⟩
    · rw [preimageViewOf_setPregeneratorImage (hlt entry (by simp)) hkey] at hkeep
      split_ifs at hkeep with heq
      · exact .inr ⟨entry, by simp, hkeep⟩
      · exact .inl hkeep
    · exact .inr ⟨e, by simp [he], hview⟩

end SetPreimages

theorem preimageViewOf_setPreimages_of_nodup
    {entries : List ((Bool × ℕ) × PauliUnitary)} (hlt : ∀ entry ∈ entries, entry.1.2 < C.numQubits)
    (hnodup : (entries.map Prod.fst).Nodup) {entry : (Bool × ℕ) × PauliUnitary}
    (hentry : entry ∈ entries) : (C.setPreimages entries).preimageViewOf entry.1 = entry.2 := by
  induction entries generalizing C with
  | nil => cases hentry
  | cons e entries ih =>
    rw [map_cons, nodup_cons] at hnodup
    have hltrest : ∀ e' ∈ entries, e'.1.2 < (C.setPregeneratorImage e.1 e.2).numQubits :=
      fun e' he' => by simpa using hlt e' (by simp [he'])
    have he := hlt e (by simp)
    rcases mem_cons.mp hentry with rfl | hmem
    · have hlt' : entry.1.2 < (C.setPregeneratorImage entry.1 entry.2).numQubits := by
        simpa using he
      have hkeep := preimageViewOf_setPreimages_of_not_mem hltrest hlt' hnodup.1
      rw [preimageViewOf_setPregeneratorImage he he, if_pos rfl] at hkeep
      exact hkeep
    · exact ih hltrest hnodup.2 hmem

/-- The keys of all generators on a number of qubits. -/
def allKeys (n : ℕ) : List (Bool × ℕ) :=
  ((List.range n).map fun index => (false, index)) ++ (List.range n).map fun index => (true, index)

theorem mem_allKeys {n : ℕ} : key ∈ allKeys n ↔ key.2 < n := by
  obtain ⟨_ | _, q⟩ := key <;> simp [allKeys]

theorem nodup_allKeys (n : ℕ) : (allKeys n).Nodup := by
  refine nodup_append.mpr ⟨?_, ?_, ?_⟩
  · exact nodup_range.map fun a b h => (Prod.mk.inj h).2
  · exact nodup_range.map fun a b h => (Prod.mk.inj h).2
  · intro a ha b hb
    obtain ⟨i, -, rfl⟩ := mem_map.mp ha
    obtain ⟨j, -, rfl⟩ := mem_map.mp hb
    simp

theorem length_allKeys (n : ℕ) : (allKeys n).length = 2 * n := by
  simp [allKeys]
  omega

theorem nodup_of_covers {n : ℕ} {keys : List (Bool × ℕ)} (hlength : keys.length = 2 * n)
    (hcovers : ∀ key : Bool × ℕ, key.2 < n → key ∈ keys) : keys.Nodup := by
  have hsub : (allKeys n).Subperm keys :=
    (nodup_allKeys n).subperm fun key hkey => hcovers key (mem_allKeys.mp hkey)
  have hperm := hsub.perm_of_length_le (by rw [hlength, length_allKeys])
  exact hperm.nodup_iff.mp (nodup_allKeys n)

section OfZero

variable {n : ℕ} {entries : List ((Bool × ℕ) × PauliUnitary)}
  (hlt : ∀ entry ∈ entries, entry.1.2 < n)
  (hbelow : ∀ entry ∈ entries, entry.2.Below n)

include hlt hbelow

theorem paddingClear_setPreimages_zero : ((zero n).setPreimages entries).PaddingClear := by
  have hview : ∀ key : Bool × ℕ, key.2 < n →
      (((zero n).setPreimages entries).preimageViewOf key).Below n := by
    intro key hkey
    rcases preimageViewOf_setPreimages_mem (C := zero n) hlt hkey with hkeep | ⟨e, he, hview⟩
    · rw [hkeep, preimageViewOf_zero]
      exact PhasedPauli.below_one n
    · rw [hview]
      exact hbelow e he
  intro i hi
  rw [numQubits_setPreimages, numQubits_zero] at hi ⊢
  exact ⟨hview (true, i) hi, hview (false, i) hi⟩

theorem mem_of_valid_setPreimages_zero (hvalid : ((zero n).setPreimages entries).isValid = true)
    {key : Bool × ℕ} (hkey : key.2 < n) : key ∈ entries.map Prod.fst := by
  by_contra habsent
  have hframe := (isValid_iff_frame (paddingClear_setPreimages_zero hlt hbelow)).mp hvalid
  have hzero := preimageViewOf_setPreimages_of_not_mem (C := zero n) hlt hkey habsent
  have hn : key.2 < ((zero n).setPreimages entries).numQubits := by simpa using hkey
  have hlift := lift_generator hn
  rw [hzero, preimageViewOf_zero, toPhased_neutralElement] at hlift
  have hone : generator key = 1 :=
    hframe.lift_injective (hlift.trans (GeneratorFrame.lift_iPow _ 0).symm)
  obtain ⟨_ | _, q⟩ := key
  · have hbits := congrArg (fun P : PhasedPauli => P.zBits.index q) hone
    simp [generator] at hbits
  · have hbits := congrArg (fun P : PhasedPauli => P.xBits.index q) hone
    simp [generator] at hbits

end OfZero

theorem sortedSupport_of_generator {p : StoredPauli .indexSet}
    (h : p.toPhased = generator key) : p.sortedSupport = [key.2] := by
  have hbits : ∀ i, (p.xBits.toBits.index i = true ∨ p.zBits.toBits.index i = true) ↔ i =
    key.2 := by
    intro i
    have hx : p.xBits.toBits = (generator key).xBits := congrArg PhasedPauli.xBits h
    have hz : p.zBits.toBits = (generator key).zBits := congrArg PhasedPauli.zBits h
    rw [hx, hz]
    obtain ⟨_ | _, q⟩ := key <;> simp [generator, eq_comm]
  have hnodup : p.sortedSupport.Nodup := Finset.sort_nodup _ _
  refine perm_singleton.mp ?_
  rw [perm_ext_iff_of_nodup hnodup (nodup_singleton _)]
  intro i
  rw [mem_sortedSupport, hbits, mem_singleton]

theorem maxSupport_any_iff {p : StoredPauli .indexSet} {n : ℕ} :
    p.maxSupport.any (fun index => n ≤ index) = true ↔ ¬ p.toPauliUnitary.Below n := by
  have hlast : p.maxSupport.any (fun index => n ≤ index) = true ↔ n < p.lastIndex := by
    unfold lastIndex
    cases p.maxSupport with
    | none => simp
    | some m => simp
  rw [hlast, ← not_le, not_iff_not]
  constructor
  · intro h
    refine ⟨Bits.below_iff.mpr fun i hi => ?_, Bits.below_iff.mpr fun i hi => ?_⟩
    · by_contra hne
      have hlt := lt_lastIndex (p := p) (.inl (eq_true_of_ne_false hne))
      omega
    · by_contra hne
      have hlt := lt_lastIndex (p := p) (.inr (eq_true_of_ne_false hne))
      omega
  · intro h
    by_contra hlt
    obtain ⟨m, hm, hsupport⟩ := exists_last (p := p) (by omega)
    rcases hsupport with hx | hz
    · have hmn := h.1.lt_of_index hx
      omega
    · have hmn := h.2.lt_of_index hz
      omega

/-- An item gives the image of a generator within a number of qubits. -/
def GivesImage (n : ℕ) (pair : ImagePair) (key : Bool × ℕ) : Prop :=
  key.2 < n ∧ pair.1.toPhased = generator key ∧ pair.2.toPauliUnitary.Below n

theorem assignImagePair_eq_some_iff {pair : ImagePair} :
    C.assignImagePair pair = some D ↔ ∃ key, GivesImage C.numQubits pair key ∧
        D = C.setPregeneratorImage key pair.2.toPauliUnitary.assigned := by
  constructor
  · intro h
    unfold assignImagePair at h
    split_ifs at h with hweight
    cases hhead : pair.1.sortedSupport.head? with
    | none =>
      rw [hhead] at h
      cases h
    | some q =>
      rw [hhead] at h
      dsimp only at h
      split_ifs at h with hrange hx hz
      · rw [not_or, not_le, maxSupport_any_iff, not_not] at hrange
        exact ⟨(true, q), ⟨hrange.1, isPauliX_iff.mp hx, hrange.2⟩, (Option.some_inj.mp h).symm⟩
      · rw [not_or, not_le, maxSupport_any_iff, not_not] at hrange
        exact ⟨(false, q), ⟨hrange.1, isPauliZ_iff.mp hz, hrange.2⟩, (Option.some_inj.mp h).symm⟩
  · rintro ⟨key, ⟨hkey, hfrom, hto⟩, rfl⟩
    have hsupport := sortedSupport_of_generator hfrom
    have hrange : ¬ (C.numQubits ≤ key.2 ∨
        pair.2.maxSupport.any (fun index => C.numQubits ≤ index) = true) := by
      rw [not_or, not_le, maxSupport_any_iff, not_not]
      exact ⟨hkey, hto⟩
    unfold assignImagePair
    rw [StoredPauli.weight, hsupport]
    simp only [length_singleton, if_true, head?_cons]
    rw [if_neg hrange]
    obtain ⟨_ | _, q⟩ := key
    · have hnot : pair.1.toPauliUnitary.isPauliX q ≠ true := by
        rw [ne_eq, isPauliX_iff]
        intro hx
        have hbits := congrArg PhasedPauli.zBits (hx.symm.trans hfrom)
        have hindex := congrArg (fun b => Bits.index b q) hbits
        simp [generator] at hindex
      rw [if_neg hnot, if_pos (isPauliZ_iff.mpr hfrom)]
      rfl
    · rw [if_pos (isPauliX_iff.mpr hfrom)]
      rfl

variable {pairs : List ImagePair}

theorem foldlM_assignImagePair_eq_some_iff :
    pairs.foldlM assignImagePair C = some D ↔
      ∃ keys, List.Forall₂ (GivesImage C.numQubits) pairs keys ∧
        D = C.setPreimages (keys.zip (pairs.map fun pair => pair.2.toPauliUnitary.assigned)) := by
  induction pairs generalizing C with
  | nil =>
    constructor
    · intro h
      exact ⟨[], .nil, (Option.some_inj.mp h).symm⟩
    · rintro ⟨keys, hkeys, rfl⟩
      cases hkeys
      rfl
  | cons pair pairs ih =>
    constructor
    · intro h
      obtain ⟨C', hC', hrest⟩ := Option.bind_eq_some_iff.mp h
      obtain ⟨key, hkey, rfl⟩ := assignImagePair_eq_some_iff.mp hC'
      obtain ⟨keys, hkeys, rfl⟩ := ih.mp hrest
      rw [numQubits_setPregeneratorImage] at hkeys
      exact ⟨key :: keys, .cons hkey hkeys, rfl⟩
    · rintro ⟨keys, hkeys, rfl⟩
      cases hkeys with
      | @cons _ key _ keys hkey hkeys =>
        refine Option.bind_eq_some_iff.mpr ⟨_, assignImagePair_eq_some_iff.mpr ⟨key, hkey, rfl⟩, ?_⟩
        refine ih.mpr ⟨keys, ?_, rfl⟩
        rwa [numQubits_setPregeneratorImage]

theorem zip_of_forall₂ {α β γ : Type} {R : α → β → Prop} {f : α → γ} {l : List α} {keys : List β}
    (h : List.Forall₂ R l keys) : (∀ a ∈ l, ∃ key, R a key ∧ (key, f a) ∈ keys.zip (l.map f)) ∧
      ∀ entry ∈ keys.zip (l.map f), ∃ a ∈ l, R a entry.1 ∧ entry.2 = f a := by
  induction h with
  | nil => simp
  | @cons a key l keys hrel _ ih =>
    constructor
    · rintro b (_ | ⟨_, hb⟩)
      · exact ⟨key, hrel, mem_cons_self ..⟩
      · obtain ⟨key', hrel', hmem⟩ := ih.1 b hb
        exact ⟨key', hrel', mem_cons_of_mem _ hmem⟩
    · rintro entry (_ | ⟨_, hentry⟩)
      · exact ⟨a, mem_cons_self .., hrel, rfl⟩
      · obtain ⟨b, hb, hrel', heq⟩ := ih.2 entry hentry
        exact ⟨b, mem_cons_of_mem _ hb, hrel', heq⟩

/-- The listed images are those of the returned Clifford unitary, with their signs. -/
def MapsImages (D : CliffordUnitary) (pairs : List ImagePair) : Prop :=
  ∀ pair ∈ pairs, (D.image pair.1.toPauliUnitary).equalsTo pair.2.toPauliUnitary = true

theorem ofImagePairs_sound (h : ofImagePairs pairs = .ok D) :
    D.ValidOn (pairs.length / 2) ∧ D.MapsImages pairs := by
  unfold ofImagePairs at h
  split_ifs at h with heven
  cases hfold : pairs.foldlM assignImagePair (zero (pairs.length / 2)) with
  | none =>
    rw [hfold] at h
    cases h
  | some C =>
    rw [hfold] at h
    dsimp only at h
    split_ifs at h with hvalid
    obtain rfl := Except.ok.inj h
    obtain ⟨keys, hkeys, rfl⟩ := foldlM_assignImagePair_eq_some_iff.mp hfold
    generalize hn : pairs.length / 2 = n at hkeys hvalid ⊢
    generalize hentries : keys.zip (pairs.map fun pair => pair.2.toPauliUnitary.assigned) =
      entries at hvalid ⊢
    have hlength := hkeys.length_eq
    have hkeysEq : entries.map Prod.fst = keys := by
      rw [← hentries]
      exact map_fst_zip (by simp [hlength])
    obtain ⟨hpairs, hentry⟩ := zip_of_forall₂
      (f := fun pair : ImagePair => pair.2.toPauliUnitary.assigned) hkeys
    rw [hentries] at hpairs hentry
    have hlt : ∀ entry ∈ entries, entry.1.2 < n := fun entry h => by
      obtain ⟨pair, -, hgives, -⟩ := hentry entry h
      exact hgives.1
    have hbelow : ∀ entry ∈ entries, entry.2.Below n := fun entry h => by
      obtain ⟨pair, -, hgives, heq⟩ := hentry entry h
      rw [heq]
      exact hgives.2.2
    have hcovers : keys.Nodup := by
      refine nodup_of_covers (n := n) (by omega) fun key hkey => ?_
      rw [← hkeysEq]
      exact mem_of_valid_setPreimages_zero hlt hbelow hvalid hkey
    have hframe := (isValid_iff_frame (paddingClear_setPreimages_zero hlt hbelow)).mp hvalid
    have hC : ((zero n).setPreimages entries).ValidOn n :=
      validOn_iff_frame.mpr ⟨by simp, hframe⟩
    refine ⟨validOn_inverse hC, fun pair hpair => ?_⟩
    obtain ⟨key, hgives, hmem⟩ := hpairs pair hpair
    have hview := preimageViewOf_setPreimages_of_nodup (C := zero n) hlt
      (hkeysEq ▸ hcovers) hmem
    have hkey : key.2 < ((zero n).setPreimages entries).numQubits := by simpa using hgives.1
    have hlift := lift_generator hkey
    rw [hview, toPhased_assigned] at hlift
    rw [equalsTo_iff]
    refine toPhased_image_of_lift (validOn_inverse hC).frame ?_ ?_
    · rw [(validOn_inverse hC).numQubits_eq]
      exact hgives.2.2
    · rw [← hlift, lift_inverse_lift_frame hC]
      exact hgives.2.1.symm

/-- A text denotes a Pauli whose qubits can be counted. -/
def DenotesPauli (text : List Char) : Prop :=
  ∃ P, PauliSentence (indexBound - 1) text P

/-- The first item with a side that names the last index comes before any malformed item. -/
def ReachesLastIndex : List (List Char) → Prop
  | [] => False
  | item :: items =>
    ∃ fromText toText, splitArrow item = [fromText, toText] ∧
      (StoredPauli.NamesLastIndex fromText ∨ StoredPauli.NamesLastIndex toText ∨
        (DenotesPauli fromText ∧ DenotesPauli toText ∧ ReachesLastIndex items))

theorem pauliFromStr_cases (text : List Char) :
    StoredPauli.NamesLastIndex text ∧ pauliFromStr .indexSet text = none ∨
      ¬ StoredPauli.NamesLastIndex text ∧ DenotesPauli text ∧
        (∃ q, pauliFromStr .indexSet text = some (.ok q)) ∨
      ¬ StoredPauli.NamesLastIndex text ∧ ¬ DenotesPauli text ∧
        pauliFromStr .indexSet text = some (.error .error) := by
  by_cases hlast : StoredPauli.NamesLastIndex text
  · exact .inl ⟨hlast, pauliFromStr_eq_none_iff.mpr hlast⟩
  · refine .inr ?_
    by_cases hdenotes : DenotesPauli text
    · obtain ⟨P, hP⟩ := hdenotes
      obtain ⟨q, hq, -⟩ := pauliFromStr_parses .indexSet hP
      exact .inl ⟨hlast, ⟨P, hP⟩, q, hq⟩
    · refine .inr ⟨hlast, hdenotes, pauliFromStr_rejects .indexSet fun P hP => ?_⟩
      rcases pauliSentence_or_namesLastIndex hP with hsentence | hnames
      · exact hdenotes ⟨P, hsentence⟩
      · exact hlast hnames

theorem parseImagePairs_eq_none_iff {items : List (List Char)} :
    parseImagePairs items = none ↔ ReachesLastIndex items := by
  induction items with
  | nil => simp [parseImagePairs, ReachesLastIndex]
  | cons item items ih =>
    have hmalformed : (∀ fromText toText, splitArrow item ≠ [fromText, toText]) →
        parseImagePair item = some (.error .error) := by
      intro h
      unfold parseImagePair
      split
      · exact absurd ‹_› (h _ _)
      · rfl
    by_cases hsplit : ∃ fromText toText, splitArrow item = [fromText, toText]
    · obtain ⟨fromText, toText, hsplit⟩ := hsplit
      have hreaches : ReachesLastIndex (item :: items) ↔
          StoredPauli.NamesLastIndex fromText ∨ StoredPauli.NamesLastIndex toText ∨
            (DenotesPauli fromText ∧ DenotesPauli toText ∧ ReachesLastIndex items) := by
        constructor
        · rintro ⟨a, b, hab, h⟩
          rw [hsplit] at hab
          obtain ⟨rfl, hb⟩ := List.cons.inj hab
          obtain ⟨rfl, -⟩ := List.cons.inj hb
          exact h
        · intro h
          exact ⟨fromText, toText, hsplit, h⟩
      rw [hreaches, parseImagePairs, parseImagePair, hsplit]
      rcases pauliFromStr_cases fromText with ⟨hlast, hfrom⟩ | ⟨hlast, hdenotes, p, hfrom⟩ |
        ⟨hlast, hdenotes, hfrom⟩
      · simp [hfrom, hlast]
      · rcases pauliFromStr_cases toText with ⟨hlast', hto⟩ | ⟨hlast', hdenotes', q, hto⟩ |
          ⟨hlast', hdenotes', hto⟩
        · simp [hfrom, hto, hlast']
        · simp only [hfrom, hto, Option.bind_eq_bind, Option.bind_some, hlast, hlast', hdenotes,
            hdenotes', true_and, false_or, ← ih]
          cases hrest : parseImagePairs items with
          | none => simp
          | some result => cases result <;> simp
        · simp [hfrom, hto, hlast, hlast', hdenotes']
      · rcases pauliFromStr_cases toText with ⟨hlast', hto⟩ | ⟨hlast', hdenotes', q, hto⟩ |
          ⟨hlast', hdenotes', hto⟩
        · simp [hfrom, hto, hlast']
        · simp [hfrom, hto, hlast, hlast', hdenotes]
        · simp [hfrom, hto, hlast, hlast', hdenotes]
    · simp only [not_exists] at hsplit
      rw [parseImagePairs, hmalformed hsplit]
      refine iff_of_false (by simp) ?_
      rintro ⟨a, b, hab, -⟩
      exact hsplit a b hab

/-- An item of a text and the pair of Paulis that its sides are parsed as. -/
def ReadsAs (item : List Char) (pair : ImagePair) : Prop :=
  ∃ fromText toText, splitArrow item = [fromText, toText] ∧
    StoredPauli.pauliFromStr .indexSet fromText = some (.ok pair.1) ∧
      StoredPauli.pauliFromStr .indexSet toText = some (.ok pair.2)

theorem parseImagePair_eq_ok_iff {item : List Char} {pair : ImagePair} :
    parseImagePair item = some (.ok pair) ↔ ReadsAs item pair := by
  constructor
  · intro h
    unfold parseImagePair at h
    split at h
    · rename_i fromText toText hsplit
      obtain ⟨p, hp, h⟩ := Option.bind_eq_some_iff.mp h
      obtain ⟨q, hq, h⟩ := Option.bind_eq_some_iff.mp h
      cases p <;> cases q <;> simp only [Option.some_inj, reduceCtorEq, Except.ok.injEq] at h
      subst h
      exact ⟨fromText, toText, hsplit, hp, hq⟩
    · cases h
  · rintro ⟨fromText, toText, hsplit, hp, hq⟩
    rw [parseImagePair, hsplit]
    simp [hp, hq]

theorem parseImagePairs_eq_ok_iff {items : List (List Char)} :
    parseImagePairs items = some (.ok pairs) ↔ List.Forall₂ ReadsAs items pairs := by
  induction items generalizing pairs with
  | nil => simp [parseImagePairs, eq_comm]
  | cons item items ih =>
    rw [parseImagePairs, forall₂_cons_left_iff]
    constructor
    · intro h
      obtain ⟨result, hitem, h⟩ := Option.bind_eq_some_iff.mp h
      cases result with
      | error e => cases h
      | ok pair =>
        obtain ⟨rest, hrest, h⟩ := Option.bind_eq_some_iff.mp h
        cases rest with
        | error e => cases h
        | ok rest =>
          obtain rfl := Except.ok.inj (Option.some_inj.mp h)
          exact ⟨pair, rest, parseImagePair_eq_ok_iff.mp hitem, ih.mp hrest, rfl⟩
    · rintro ⟨pair, rest, hitem, hrest, rfl⟩
      simp [parseImagePair_eq_ok_iff.mpr hitem, ih.mpr hrest]

/-- The items of a text; a blank text has none. -/
def listedItems (text : List Char) : List (List Char) :=
  if trim text = [] then [] else textItems text

/-- The parser does not panic, and a Clifford unitary that it returns is valid and has the listed
images. -/
def ParsesSoundly (text : List Char) : Prop :=
  cliffordFromStr text ≠ none ∧
    ∀ D, cliffordFromStr text = some (.ok D) →
      D.ValidOn D.numQubits ∧
        ∃ pairs, List.Forall₂ ReadsAs (listedItems text) pairs ∧ D.MapsImages pairs

variable {text : List Char}

theorem cliffordFromStr_eq_none_iff :
    cliffordFromStr text = none ↔ ReachesLastIndex (listedItems text) := by
  unfold cliffordFromStr listedItems
  split_ifs with hblank
  · simp [ReachesLastIndex]
  · rw [← parseImagePairs_eq_none_iff]
    cases parseImagePairs (textItems text) with
    | none => simp
    | some result => cases result <;> simp

theorem cliffordFromStr_sound (h : cliffordFromStr text = some (.ok D)) :
    D.ValidOn D.numQubits ∧
      ∃ pairs, List.Forall₂ ReadsAs (listedItems text) pairs ∧ D.MapsImages pairs := by
  unfold cliffordFromStr at h
  unfold listedItems
  split_ifs at h ⊢ with hblank
  · obtain rfl := Except.ok.inj (Option.some_inj.mp h)
    exact ⟨validOn_identity 0, [], .nil, fun pair hpair => by cases hpair⟩
  · obtain ⟨result, hresult, h⟩ := Option.bind_eq_some_iff.mp h
    cases result with
    | error e => cases h
    | ok pairs =>
      obtain ⟨hvalid, hmaps⟩ := ofImagePairs_sound (Option.some_inj.mp h)
      exact ⟨validOn_of_frame hvalid.frame, pairs, parseImagePairs_eq_ok_iff.mp hresult, hmaps⟩

theorem parsesSoundly_iff : ParsesSoundly text ↔ ¬ ReachesLastIndex (listedItems text) := by
  rw [ParsesSoundly, ne_eq, cliffordFromStr_eq_none_iff]
  exact ⟨fun h => h.1, fun h => ⟨h, fun D hD => cliffordFromStr_sound hD⟩⟩

section Printed

variable {n : ℕ} {p : PauliUnitary}

theorem toBits_withLengthFromIter_range {b : Bits} (hb : b.Below n) :
    (AlignedBitVec.withLengthFromIter ((List.range n).map b.index)).1.toBits = b := by
  refine Bits.ext_index fun i => ?_
  rw [AlignedBitVec.index_toBits_withLengthFromIter]
  rcases Nat.lt_or_ge i n with hi | hi
  · rw [getD_eq_getElem _ _ (by simpa using hi)]
    simp
  · rw [getD_eq_default _ _ (by simpa using hi), hb.index_eq_false hi]

theorem toPauliUnitary_denseOn (hp : p.Below n) : (denseOn n p).toPauliUnitary = p := by
  have hx := toBits_withLengthFromIter_range hp.1
  have hz := toBits_withLengthFromIter_range hp.2
  simp only [toPhased_xBits, toPhased_zBits] at hx hz
  cases p
  simp only [toPauliUnitary, denseOn, PauliBits.toBits, hx, hz]

theorem supportFits_denseOn (n : ℕ) (p : PauliUnitary) : (denseOn n p).SupportFits := by
  refine supportFits_of_capacity_eq ?_
  simp [denseOn, PauliBits.capacity, AlignedBitVec.bitLen, AlignedBitVec.withLengthFromIter]

end Printed

/-- The letter of a generator. -/
def labelOf (key : Bool × ℕ) : Char :=
  if key.1 then 'X' else 'Z'

def generatorImage (C : CliffordUnitary) (key : Bool × ℕ) : PauliUnitary :=
  if key.1 then C.imageX key.2 else C.imageZ key.2

theorem images_eq (C : CliffordUnitary) : C.images = (allKeys C.numQubits).map fun key =>
      (labelOf key, key.2, denseOn C.numQubits (C.generatorImage key)) := by
  simp only [images, allKeys, map_append, map_map]
  rfl

theorem below_generatorImage (hf : C.frame.Valid)
    (hkey : key.2 < C.numQubits) : (C.generatorImage key).Below C.numQubits := by
  obtain ⟨_ | _, q⟩ := key
  · refine (hf.below_lift_iff C.fixesFrom_frame).mp ?_
    change (C.frame.lift (C.imageZ q).toPhased).Below C.numQubits
    rw [toPhased_imageZ hf hkey]
    exact below_Z.mpr hkey
  · refine (hf.below_lift_iff C.fixesFrom_frame).mp ?_
    change (C.frame.lift (C.imageX q).toPhased).Below C.numQubits
    rw [toPhased_imageX hf hkey]
    exact below_X.mpr hkey

theorem prints_generator {style : StringNotation} (hstyle : style ≠ .tex)
    {bound : ℕ} (hkey : key.2 < bound) :
    Prints bound (labelOf key :: style.subscript key.2) (generator key) := by
  have hletter : labelOf key ∈ ['X', 'Y', 'Z'] := by
    obtain ⟨_ | _, q⟩ := key <;> simp [labelOf]
  have hblank : ∀ c ∈ ['X', 'Y', 'Z'], isWhitespace c = false := by decide
  have hplain : ∀ c ∈ ['X', 'Y', 'Z'], isMappingCharacter c = false := by decide
  have hletters : ∀ entry ∈ [(key.2, labelOf key)], entry.2 ∈ ['X', 'Y', 'Z'] := by
    simpa using hletter
  have hbody : PauliBody bound (style.separator.intercalate ([(key.2, labelOf key)].map
      (entryText style))) _ :=
    pauliBody_entriesText hstyle hletters (cons_ne_nil _ _) (by simpa using hkey)
  have hends : NoBlankEnds (style.separator.intercalate ([(key.2, labelOf key)].map
      (entryText style))) :=
    noBlankEnds_entriesText hstyle (by simpa using hblank _ hletter)
  have hmapping : ∀ c ∈ style.separator.intercalate ([(key.2, labelOf key)].map
      (entryText style)), isMappingCharacter c = false :=
    not_mapping_entriesText hstyle (by simpa using hplain _ hletter)
  rw [map_singleton, intercalate_singleton] at hbody hends hmapping
  have hprints := prints_append (mem_cons_self ..) hbody hends (cons_ne_nil _ _) hmapping
  have hoperator : iPow (phaseResidue 0) *
      sparseOperator ([(key.2, labelOf key)].map fun entry => (entry.2, entry.1)) =
        generator key := by
    have hzero : phaseResidue 0 = 0 := rfl
    obtain ⟨_ | _, q⟩ := key <;> simp [hzero, sparseOperator, labelOf, pauliFactor, generator]
  rw [hoperator] at hprints
  exact hprints

theorem pauliSentence_blank {bound : ℕ} {P : PhasedPauli} (h : PauliSentence bound text P) :
    PauliSentence bound (' ' :: text) P := by
  have htrim : trim (' ' :: text) = trim text := by
    rw [trim, trim, dropWhile_cons_of_pos (by decide)]
  rwa [PauliSentence, htrim]

/-- A pair of Paulis for a generator and its image. -/
def Lists (C : CliffordUnitary) (key : Bool × ℕ) (pair : ImagePair) : Prop :=
  pair.1.toPhased = generator key ∧ pair.2.toPhased = (C.generatorImage key).toPhased

theorem exists_readsAs {fromText toText : List Char}
    {c : Char} (hc : [':', '→'].contains c = true)
    (hfrom : PauliSentence (indexBound - 1) fromText (generator key))
    (hfromPlain : ∀ c ∈ fromText, isMappingCharacter c = false)
    (hto : PauliSentence (indexBound - 1) toText (C.generatorImage key).toPhased)
    (htoPlain : ∀ c ∈ toText, isMappingCharacter c = false) :
    ∃ pair, ReadsAs (fromText ++ c :: toText) pair ∧ Lists C key pair := by
  have hplain : ∀ {text : List Char}, (∀ c ∈ text, isMappingCharacter c = false) →
      ∀ c ∈ text, [':', '→'].contains c = false := by
    intro text h c hmem
    simp_all [isMappingCharacter]
  obtain ⟨p, hp, hpP⟩ := pauliFromStr_parses .indexSet hfrom
  obtain ⟨q, hq, hqP⟩ := pauliFromStr_parses .indexSet hto
  refine ⟨(p, q), ⟨fromText, toText, ?_, hp, hq⟩, hpP, hqP⟩
  rw [splitArrow, splitOnP_append_cons_of_forall_mem (hplain hfromPlain) c hc,
    splitOnP_eq_singleton (hplain htoPlain)]

theorem splitItems_intercalate {texts : List (List Char)}
    (h : ∀ t ∈ text :: texts, ∀ c ∈ t, ['\n', ','].contains c = false) :
    splitItems ([',', ' '].intercalate (text :: texts)) = text :: texts.map (' ' :: ·) := by
  induction texts generalizing text with
  | nil =>
    rw [intercalate_singleton, splitItems, splitOnP_eq_singleton (h text (by simp))]
    rfl
  | cons next texts ih =>
    have hnext : ∀ t ∈ (' ' :: next) :: texts, ∀ c ∈ t, ['\n', ','].contains c = false := by
      rintro t (_ | ⟨_, ht⟩)
      · rintro c (_ | ⟨_, hc⟩)
        · decide
        · exact h next (by simp) c hc
      · exact h t (mem_cons_of_mem _ (mem_cons_of_mem _ ht))
    have hsplit : [',', ' '].intercalate (text :: next :: texts) =
        text ++ ',' :: [',', ' '].intercalate ((' ' :: next) :: texts) := by
      rw [intercalate_cons_cons, intercalate_cons_cons_left, append_assoc]
      rfl
    rw [hsplit, splitItems, splitOnP_append_cons_of_forall_mem (h text (by simp)) ',' rfl]
    exact congrArg (text :: ·) (ih hnext)

section PrintedItems

variable {n : ℕ} {C : CliffordUnitary} (hC : C.ValidOn n) (hn : n < indexBound)
  (layout : StringLayout) {style : StringNotation} (hstyle : style ≠ .tex)

def itemText (C : CliffordUnitary) (layout : StringLayout) (style : StringNotation)
    (key : Bool × ℕ) :
    List Char :=
  (formatImage layout style
    (labelOf key, key.2, StoredPauli.denseOn C.numQubits (C.generatorImage key))).getD []

include hC hn hstyle

theorem exists_itemText_eq {key : Bool × ℕ} (hkey : key.2 < n) :
    ∃ imageStr, formatImage layout style
        (labelOf key, key.2, denseOn C.numQubits (C.generatorImage key)) =
          some (itemText C layout style key) ∧ itemText C layout style key =
        (labelOf key :: style.subscript key.2) ++ style.arrow ++ imageStr ∧
      Prints (indexBound - 1) imageStr (C.generatorImage key).toPhased := by
  obtain rfl := hC.numQubits_eq
  have hbelow := below_generatorImage hC.frame hkey
  have hpauli := toPauliUnitary_denseOn hbelow
  have hbound : (denseOn C.numQubits (C.generatorImage key)).toPauliUnitary.Below
      (indexBound - 1) := by
    rw [hpauli]
    exact PhasedPauli.Below.mono hbelow (by omega)
  obtain ⟨imageStr, htext, hprints⟩ := prints_formatPauli
    (supportFits_denseOn C.numQubits (C.generatorImage key)) hbound layout hstyle false
  rw [StoredPauli.toPhased, hpauli] at hprints
  have hformat : formatImage layout style
      (labelOf key, key.2, denseOn C.numQubits (C.generatorImage key)) =
        some ((labelOf key :: style.subscript key.2) ++ style.arrow ++ imageStr) := by
    rw [formatImage]
    simp only [htext, Option.bind_eq_bind, Option.bind_some]
  refine ⟨imageStr, ?_, ?_, hprints⟩
  · rw [itemText, hformat, Option.getD_some]
  · rw [itemText, hformat, Option.getD_some]

theorem itemText_spec {key : Bool × ℕ} (hkey : key.2 < n) :
    NoBlankEnds (itemText C layout style key) ∧ itemText C layout style key ≠ [] ∧
      (∀ c ∈ itemText C layout style key, ['\n', ','].contains c = false) ∧
        ∀ blank ∈ [[], [' ']], ∃ pair, ReadsAs (blank ++ itemText C layout style key) pair ∧
          Lists C key pair := by
  obtain ⟨imageStr, -, htext, hprints⟩ := exists_itemText_eq hC hn layout hstyle hkey
  have hbound : key.2 < indexBound - 1 := by omega
  have hlabel := prints_generator hstyle hbound
  have hplain : ∀ {text : List Char}, (∀ c ∈ text, isMappingCharacter c = false) →
      ∀ c ∈ text, ['\n', ','].contains c = false := by
    intro text h c hmem
    simp_all [isMappingCharacter]
  have harrow : ∃ c blank, style.arrow = c :: blank ∧ [':', '→'].contains c = true ∧
      blank ∈ [[], [' ']] ∧ ∀ c ∈ style.arrow, ['\n', ','].contains c = false := by
    cases style with
    | tex => exact absurd rfl hstyle
    | unicode => exact ⟨_, _, rfl, by decide, by decide, by decide⟩
    | ascii => exact ⟨_, _, rfl, by decide, by decide, by decide⟩
  obtain ⟨c, blank', hc, hcontains, hblank', hsafe⟩ := harrow
  have hends : NoBlankEnds (style.arrow.intercalate
      [labelOf key :: style.subscript key.2, imageStr]) := by
    refine noBlankEnds_intercalate fun t ht => ?_
    rcases mem_cons.mp ht with rfl | ht
    · exact ⟨hlabel.noBlankEnds, hlabel.ne_nil⟩
    · obtain rfl := mem_singleton.mp ht
      exact ⟨hprints.noBlankEnds, hprints.ne_nil⟩
  rw [intercalate_cons_cons, intercalate_singleton] at hends
  rw [htext]
  refine ⟨hends, append_ne_nil_of_right_ne_nil _ hprints.ne_nil, ?_, ?_⟩
  · intro d hd
    rcases mem_append.mp hd with hd | hd
    · rcases mem_append.mp hd with hd | hd
      · exact hplain hlabel.not_mapping d hd
      · exact hsafe d hd
    · exact hplain hprints.not_mapping d hd
  · intro blank hblank
    have hspace : ∀ {text : List Char} {P : PhasedPauli} {b : List Char}, b ∈ [[], [' ']] →
        PauliSentence (indexBound - 1) text P →
          (∀ c ∈ text, isMappingCharacter c = false) →
            PauliSentence (indexBound - 1) (b ++ text) P ∧
              ∀ c ∈ b ++ text, isMappingCharacter c = false := by
      intro text P b hb htext hmapping
      simp only [mem_cons, not_mem_nil, or_false] at hb
      rcases hb with rfl | rfl
      · exact ⟨htext, hmapping⟩
      · refine ⟨pauliSentence_blank htext, ?_⟩
        rintro c (_ | ⟨_, hc⟩)
        · decide
        · exact hmapping c hc
    obtain ⟨hfrom, hfromPlain⟩ := hspace hblank hlabel.sentence hlabel.not_mapping
    obtain ⟨hto, htoPlain⟩ := hspace hblank' hprints.sentence hprints.not_mapping
    obtain ⟨pair, hreads, hlists⟩ := exists_readsAs (C := C) hcontains hfrom hfromPlain hto htoPlain
    refine ⟨pair, ?_, hlists⟩
    rw [hc]
    simpa [append_assoc] using hreads

end PrintedItems

theorem exists_pairs (keys : List (Bool × ℕ)) (item : Bool × ℕ → List Char)
    (h : ∀ key ∈ keys, ∃ pair, ReadsAs (item key) pair ∧ Lists C key pair) :
    ∃ pairs, List.Forall₂ ReadsAs (keys.map item) pairs ∧ List.Forall₂ (Lists C) keys pairs := by
  induction keys with
  | nil => exact ⟨[], .nil, .nil⟩
  | cons key keys ih =>
    obtain ⟨pair, hreads, hlists⟩ := h key (by simp)
    obtain ⟨pairs, hrest, hkeys⟩ := ih fun key' hkey' => h key' (by simp [hkey'])
    exact ⟨pair :: pairs, .cons hreads hrest, .cons hlists hkeys⟩

section RoundTrip

variable {n : ℕ} {C : CliffordUnitary} (hC : C.ValidOn n)

include hC

theorem ofImagePairs_of_lists (h : List.Forall₂ (Lists C) (allKeys n) pairs) :
    ∃ D, ofImagePairs pairs = .ok D ∧ D.equalsTo C = true := by
  obtain rfl := hC.numQubits_eq
  have hlength : pairs.length = 2 * C.numQubits := by rw [← h.length_eq, length_allKeys]
  have hhalf : pairs.length / 2 = C.numQubits := by omega
  have hgives : List.Forall₂ (fun pair key => GivesImage C.numQubits pair key ∧ Lists C key pair)
      pairs (allKeys C.numQubits) := by
    refine (forall₂_iff_zip.mpr ⟨h.length_eq.symm, fun {pair key} hmem => ?_⟩)
    have hlists := forall₂_zip h.flip hmem
    have hkey := mem_allKeys.mp (of_mem_zip hmem).2
    have hbelow := below_generatorImage hC.frame hkey
    refine ⟨⟨hkey, hlists.1, ?_⟩, hlists⟩
    change pair.2.toPhased.Below C.numQubits
    rw [hlists.2]
    exact hbelow
  let entries := (allKeys C.numQubits).zip (pairs.map fun pair => pair.2.toPauliUnitary.assigned)
  have hfold : pairs.foldlM assignImagePair (zero (pairs.length / 2)) =
      some ((zero C.numQubits).setPreimages entries) := by
    rw [hhalf]
    exact foldlM_assignImagePair_eq_some_iff.mpr
      ⟨allKeys C.numQubits, hgives.imp fun _ _ hpair => hpair.1, rfl⟩
  obtain ⟨-, hentry⟩ := zip_of_forall₂
    (f := fun pair : ImagePair => pair.2.toPauliUnitary.assigned) hgives
  have hkeys : entries.map Prod.fst = allKeys C.numQubits :=
    map_fst_zip (by rw [length_allKeys, length_map, hlength])
  have hlt : ∀ entry ∈ entries, entry.1.2 < (zero C.numQubits).numQubits := fun entry hmem => by
    obtain ⟨pair, -, hpair, -⟩ := hentry entry hmem
    exact hpair.1.1
  have hview : ∀ key : Bool × ℕ, key.2 < C.numQubits →
      (((zero C.numQubits).setPreimages entries).preimageViewOf key).toPhased =
        (C.generatorImage key).toPhased := by
    intro key hkey
    have hmem : key ∈ entries.map Prod.fst := by
      rw [hkeys]
      exact mem_allKeys.mpr hkey
    obtain ⟨entry, hentryMem, rfl⟩ := mem_map.mp hmem
    obtain ⟨pair, -, hpair, heq⟩ := hentry entry hentryMem
    rw [preimageViewOf_setPreimages_of_nodup hlt (hkeys ▸ nodup_allKeys C.numQubits) hentryMem, heq,
      toPhased_assigned]
    exact hpair.2.2
  have hT : ((zero C.numQubits).setPreimages entries).numQubits = C.numQubits := by simp
  generalize (zero C.numQubits).setPreimages entries = T at hfold hview hT
  have hframe : T.frame = C.inverse.frame := by
    rw [frame_inverse]
    refine GeneratorFrame.ext (funext fun i => ?_) (funext fun i => ?_)
    · by_cases hi : i < C.numQubits
      · rw [frame_x (by omega)]
        simp only [imageFrame, hi, if_true]
        exact hview (true, i) hi
      · rw [frame_x_of_le (by omega), (C.fixesFrom_imageFrame i (by omega)).1]
    · by_cases hi : i < C.numQubits
      · rw [frame_z (by omega)]
        simp only [imageFrame, hi, if_true]
        exact hview (false, i) hi
      · rw [frame_z_of_le (by omega), (C.fixesFrom_imageFrame i (by omega)).2]
  have hvalid : T.ValidOn C.numQubits :=
    validOn_iff_frame.mpr ⟨hT, hframe ▸ (validOn_inverse hC).frame⟩
  refine ⟨T.inverse, ?_, ?_⟩
  · rw [ofImagePairs, if_pos (by omega), hfold]
    exact if_pos hvalid.isValid_eq
  · refine equalsTo_of_lift_eq (validOn_inverse hvalid) hC fun P => ?_
    have hback : T.frame.lift (C.frame.lift P) = P := by rw [hframe, lift_inverse_lift_frame hC]
    calc
      T.inverse.frame.lift P = T.inverse.frame.lift (T.frame.lift (C.frame.lift P)) := by rw [hback]
      _ = C.frame.lift P := lift_inverse_lift_frame hvalid _

theorem cliffordFromStr_toStringWith (hn : n < indexBound) (layout : StringLayout)
    {style : StringNotation} (hstyle : style ≠ .tex) :
    ∃ text D, C.toStringWith layout style = some text ∧ cliffordFromStr text = some (.ok D) ∧
      D.equalsTo C = true := by
  have hnum := hC.numQubits_eq
  have hspec := fun key (hkey : key ∈ allKeys n) =>
    itemText_spec hC hn layout hstyle (mem_allKeys.mp hkey)
  have hstyles : style.mappingPreamble = [] ∧ style.mappingEpilogue = [] ∧
      style.mappingSeparator = [',', ' '] := by
    cases style with
    | tex => exact absurd rfl hstyle
    | unicode => exact ⟨rfl, rfl, rfl⟩
    | ascii => exact ⟨rfl, rfl, rfl⟩
  have htext : C.toStringWith layout style =
      some ([',', ' '].intercalate ((allKeys n).map (itemText C layout style))) := by
    have hitems : ((allKeys n).map fun key =>
        (labelOf key, key.2, denseOn C.numQubits (C.generatorImage key))).mapM
          (formatImage layout style) = some ((allKeys n).map (itemText C layout style)) := by
      rw [mapM_map]
      refine mapM_eq_some fun key hkey => ?_
      obtain ⟨_, hformat, _⟩ := exists_itemText_eq hC hn layout hstyle (mem_allKeys.mp hkey)
      exact hformat
    rw [toStringWith, formatCliffordImages, images_eq, hnum]
    rw [hnum] at hitems
    simp [hitems, hstyles]
  rw [htext]
  cases hkeys : allKeys n with
  | nil =>
    have hzero : n = 0 := by
      have hlength := length_allKeys n
      rw [hkeys, length_nil] at hlength
      omega
    refine ⟨[], identity 0, rfl, if_pos rfl, ?_⟩
    have hid : (identity 0).ValidOn n := hzero ▸ validOn_identity 0
    refine equalsTo_of_frame_eq (hid.numQubits_eq.trans hnum.symm) ?_
    refine GeneratorFrame.ext (funext fun i => ?_) (funext fun i => ?_)
    · rw [frame_x_of_le (by simp), frame_x_of_le (by omega)]
    · rw [frame_z_of_le (by simp), frame_z_of_le (by omega)]
  | cons key keys =>
    rw [hkeys] at hspec
    let first := itemText C layout style key
    let rest := keys.map (itemText C layout style)
    have htexts : ∀ t ∈ first :: rest, NoBlankEnds t ∧ t ≠ [] ∧
        ∀ c ∈ t, ['\n', ','].contains c = false := by
      intro t ht
      obtain ⟨key', hkey', rfl⟩ : ∃ key' ∈ key :: keys, itemText C layout style key' = t :=
        mem_map.mp ht
      exact ⟨(hspec key' hkey').1, (hspec key' hkey').2.1, (hspec key' hkey').2.2.1⟩
    have hends : NoBlankEnds ([',', ' '].intercalate (first :: rest)) :=
      noBlankEnds_intercalate fun t ht => ⟨(htexts t ht).1, (htexts t ht).2.1⟩
    have hhead := head?_intercalate [',', ' '] (htexts first (by simp)).2.1 rest
    have hnonempty : [',', ' '].intercalate (first :: rest) ≠ [] := by
      intro hnil
      rw [hnil] at hhead
      exact (htexts first (by simp)).2.1 (head?_eq_none_iff.mp hhead.symm)
    -- no comma at the end is trimmed
    have htrim : trimEndCommas ([',', ' '].intercalate (first :: rest)) =
        [',', ' '].intercalate (first :: rest) := by
      obtain ⟨t, ht, hlast⟩ := exists_getLast?_intercalate [',', ' ']
        fun t (ht : t ∈ first :: rest) => (htexts t ht).2.1
      rw [← head?_reverse] at hlast
      rw [trimEndCommas]
      cases hreverse : ([',', ' '].intercalate (first :: rest)).reverse with
      | nil => exact absurd (reverse_eq_nil_iff.mp hreverse) hnonempty
      | cons c cs =>
        rw [hreverse, head?_cons] at hlast
        have hmem : c ∈ t := mem_of_getLast? hlast.symm
        have hc : c ≠ ',' := by
          rintro rfl
          simpa using (htexts t ht).2.2 ',' hmem
        rw [dropWhile_cons_of_neg (by simpa using hc), ← hreverse, reverse_reverse]
    have hitems : textItems ([',', ' '].intercalate (first :: rest)) =
        first :: rest.map (' ' :: ·) := by
      rw [textItems, hends.trim_eq, htrim]
      exact splitItems_intercalate fun t ht => (htexts t ht).2.2
    obtain ⟨pair, hreads, hlists⟩ := (hspec key (by simp)).2.2.2 [] (by simp)
    obtain ⟨pairs, hrestReads, hrestLists⟩ := exists_pairs keys
      (fun key => ' ' :: itemText C layout style key)
      fun key' hkey' => (hspec key' (by simp [hkey'])).2.2.2 [' '] (by simp)
    have hparsed : parseImagePairs (first :: rest.map (' ' :: ·)) = some (.ok (pair :: pairs)) := by
      refine parseImagePairs_eq_ok_iff.mpr (.cons hreads ?_)
      rw [map_map]
      exact hrestReads
    have hall : List.Forall₂ (Lists C) (allKeys n) (pair :: pairs) := by
      rw [hkeys]
      exact .cons hlists hrestLists
    obtain ⟨D, hD, hequals⟩ := ofImagePairs_of_lists hC hall
    refine ⟨_, D, rfl, ?_, hequals⟩
    rw [map_cons, cliffordFromStr, hends.trim_eq, if_neg hnonempty, hitems, hparsed]
    exact congrArg some hD

end RoundTrip

/-- A printed Clifford unitary is parsed back, and a text is parsed soundly exactly when its
parser does not reach the last index. -/
theorem cliffordText_faithful_and_sound_iff (C : CliffordUnitary) (layout : StringLayout)
    (style : StringNotation) (text : List Char) : (∀ n, C.ValidOn n → n < indexBound →
      style ≠ .tex →
      ∃ text D, C.toStringWith layout style = some text ∧ cliffordFromStr text = some (.ok D) ∧
        D.equalsTo C = true) ∧ (ParsesSoundly text ↔ ¬ ReachesLastIndex (listedItems text)) :=
  ⟨fun _ hC hn hstyle => cliffordFromStr_toStringWith hC hn layout hstyle, parsesSoundly_iff⟩

theorem cliffordText_identity_faithful :
    (identity 1).ValidOn 1 ∧ 1 < indexBound ∧ StringNotation.ascii ≠ .tex ∧
      ∃ text D, (identity 1).toStringWith .sparse .ascii = some text ∧
        cliffordFromStr text = some (.ok D) ∧ D.equalsTo (identity 1) = true :=
  ⟨validOn_identity 1, by decide, by decide,
    (cliffordText_faithful_and_sound_iff (identity 1) .sparse .ascii []).1 1 (validOn_identity 1)
      (by decide) (by decide)⟩

/-- The parser panics on a text that names the last index. -/
theorem not_parsesSoundly_lastIndex : ¬ ∀ text : List Char, ParsesSoundly text := by
  intro h
  have hpanic :
      cliffordFromStr "X_18446744073709551615: X_0, Z_0: Z_0".toList = none := by
    decide
  exact (h _).1 hpanic

end CliffordUnitary

end QdkEc
