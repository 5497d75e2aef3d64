import QdkEc.Lib.OptionTraversal
import QdkEc.Paulimer.PauliGrammar

/-!
# Round trips through the text of a Pauli

This module proves that the printed text of a Pauli denotes it in the grammar of
the parser.  The phase in front of the text makes up for the letters `Y`, each of
which is `i` times an `X` and a `Z`.
-/

namespace QdkEc

open PhasedPauli List PauliBits PauliUnitary Bits
open scoped Memberwise

theorem pauliFactor_character (a b : Bool) (i : ℕ) : pauliFactor (StoredPauli.character (a, b)) i =
      ⟨if a && b then 1 else 0, if a then unit i else 0, if b then unit i else 0⟩ := by
  cases a <;> cases b <;> ext1 <;> simp [pauliFactor, StoredPauli.character]

theorem ofList_filter_cons (f : ℕ → Bool) (i : ℕ) (l : List ℕ) : ofList ((i :: l).filter f) =
      (if f i then unit i else 0) + ofList (l.filter f) := by
  cases hi : f i with
  | true => rw [filter_cons_of_pos hi, ofList_cons, if_pos rfl]
  | false => rw [filter_cons_of_neg (by simp [hi]), if_neg (by simp), zero_add]

variable {l : List ℕ}

theorem prod_pauliFactor (x z : Bits) (hl : l.Nodup) :
    (l.map fun i => pauliFactor (StoredPauli.character (x.index i, z.index i)) i).prod =
      ⟨((l.countP fun i => x.index i && z.index i : ℕ) : ZMod 4), ofList (l.filter x.index),
        ofList (l.filter z.index)⟩ := by
  induction l with
  | nil => rfl
  | cons i l ih =>
    obtain ⟨hi, hl⟩ := nodup_cons.mp hl
    have habsent : Bits.dot (if z.index i then unit i else 0)
        (ofList (l.filter x.index)) = false := by
      split_ifs
      · rw [dot_unit_left, index_ofList (hl.filter _)]
        simp [hi]
      · exact dot_zero_left _
    rw [map_cons, prod_cons, ih hl, pauliFactor_character]
    ext1
    · rw [mul_phase, habsent, twist_false, add_zero, countP_cons]
      split_ifs <;> simp [add_comm]
    · exact (ofList_filter_cons x.index i l).symm
    · exact (ofList_filter_cons z.index i l).symm

theorem ofList_filter_index {b : Bits} (hl : l.Nodup) (h : ∀ i, b.index i = true → i ∈ l) :
    ofList (l.filter b.index) = b := by
  refine ext_index fun i => ?_
  rw [index_ofList (hl.filter _)]
  cases hi : b.index i with
  | true => simp [hi, h i hi]
  | false => simp [hi]

theorem prod_pauliFactor_of_covers {x z : Bits} (hl : l.Nodup)
    (hx : ∀ i, x.index i = true → i ∈ l) (hz : ∀ i, z.index i = true → i ∈ l) :
    (l.map fun i => pauliFactor (StoredPauli.character (x.index i, z.index i)) i).prod =
      ⟨((l.countP fun i => x.index i && z.index i : ℕ) : ZMod 4), x, z⟩ := by
  rw [prod_pauliFactor x z hl, ofList_filter_index hl hx, ofList_filter_index hl hz]

theorem countP_eq_length_support {x z : Bits} (hl : l.Nodup) (hx : ∀ i, x.index i = true → i ∈ l) :
    (l.countP fun i => x.index i && z.index i) = (inter x z).support.length := by
  rw [countP_eq_length_filter]
  refine (List.Perm.length_eq ?_).symm
  refine support_perm (hl.filter _) fun i => ?_
  rw [mem_filter, index_inter, Bool.and_eq_true]
  exact ⟨fun h => h.2, fun h => ⟨hx i h.1, h⟩⟩

theorem phaseResidue_foldl {α : Type} (isY : α → Bool) (l : List α) (e : UInt8) : phaseResidue
        (l.foldl (fun phase a => if isY a then (phase + 3) % 4 else phase) e) =
      phaseResidue e - (l.countP isY : ℕ) := by
  induction l generalizing e with
  | nil => simp
  | cons a l ih =>
    have hthree : ∀ f : UInt8, phaseResidue ((f + 3) % 4) =
        phaseResidue f - 1 := by
      intro f
      have hvalue := phaseResidue_phaseValue (f + 3)
      rw [phaseValue] at hvalue
      rw [hvalue, phaseResidue_add, sub_eq_add_neg]
      rfl
    rw [foldl_cons, ih, countP_cons]
    cases isY a with
    | false => simp
    | true =>
      simp [hthree]
      ring

theorem exists_phaseExp (phase extraPhase : UInt8) (signPlus : Bool) {style : StringNotation}
    (hstyle : style ≠ .tex) :
    ∃ phaseExp, (StoredPauli.formatPhasePrefix (some phase) extraPhase signPlus style, phaseExp) ∈
        ([], 0) :: phasePrefixes ∧ phaseResidue phaseExp =
        phaseResidue phase + phaseResidue extraPhase := by
  have hresidue : phaseResidue ((phase + extraPhase) % 4) =
      phaseResidue phase + phaseResidue extraPhase := by
    rw [← phaseResidue_add]
    exact phaseResidue_phaseValue _
  refine ⟨(phase + extraPhase) % 4, ?_, hresidue⟩
  have hlt : ((phase + extraPhase) % 4).toNat < 4 := by exact Nat.mod_lt _ (by decide)
  have hofNat : (phase + extraPhase) % 4 = UInt8.ofNat ((phase + extraPhase) % 4).toNat :=
    UInt8.ofNat_toNat.symm
  unfold StoredPauli.formatPhasePrefix
  dsimp only
  generalize (phase + extraPhase) % 4 = combined at hlt hofNat ⊢
  generalize combined.toNat = n at hlt hofNat
  subst hofNat
  cases style with
  | tex => exact absurd rfl hstyle
  | unicode => interval_cases n <;> cases signPlus <;> decide
  | ascii => interval_cases n <;> cases signPlus <;> decide

theorem getDigit_subscriptDigit {d : ℕ} (hd : d < 10) : getDigit (subscriptDigit d) = some d := by
  interval_cases d <;> decide

theorem getDigit_asciiDigit {d : ℕ} (hd : d < 10) : getDigit (asciiDigit d) = some d := by
  interval_cases d <;> decide

/-- The digits of a subscript. -/
def StringNotation.numeral (style : StringNotation) (index : ℕ) : List Char :=
  (Decimal.digits index).map (if style = .unicode then subscriptDigit else asciiDigit)

theorem map_getDigit_numeral (style : StringNotation) (index : ℕ) :
    (style.numeral index).map getDigit = (Decimal.digits index).map some := by
  rw [StringNotation.numeral, map_map]
  refine map_congr_left fun d hd => ?_
  have hlt := Decimal.lt_ten_of_mem_digits hd
  split_ifs
  · exact getDigit_subscriptDigit hlt
  · exact getDigit_asciiDigit hlt

theorem filter_subscript {style : StringNotation} (hstyle : style ≠ .tex) (index : ℕ) :
    (style.subscript index).filter (fun c => !isSeparator c) = style.numeral index := by
  have hdigits : ∀ {digit : ℕ → Char}, (∀ d < 10, isSeparator (digit d) = false) →
      ((Decimal.digits index).map digit).filter (fun c => !isSeparator c) =
        (Decimal.digits index).map digit := by
    intro digit hdigit
    refine filter_eq_self.mpr fun c hc => ?_
    obtain ⟨d, hd, rfl⟩ := mem_map.mp hc
    rw [hdigit d (Decimal.lt_ten_of_mem_digits hd)]
    rfl
  cases style with
  | tex => exact absurd rfl hstyle
  | unicode => exact hdigits (by decide)
  | ascii =>
    rw [StringNotation.subscript, filter_cons_of_neg (by decide), hdigits (by decide)]
    rfl

/-- The characters between the parts of a list of images. -/
def isMappingCharacter (c : Char) : Bool :=
  ['\n', ',', ':', '→'].contains c

theorem not_mapping_subscript {style : StringNotation} (hstyle : style ≠ .tex) (index : ℕ) :
    ∀ c ∈ style.subscript index, isMappingCharacter c = false := by
  have hdigits : ∀ {digit : ℕ → Char}, (∀ d < 10, isMappingCharacter (digit d) = false) →
      ∀ c ∈ (Decimal.digits index).map digit, isMappingCharacter c = false := by
    intro digit hdigit c hc
    obtain ⟨d, hd, rfl⟩ := mem_map.mp hc
    exact hdigit d (Decimal.lt_ten_of_mem_digits hd)
  cases style with
  | tex => exact absurd rfl hstyle
  | unicode => exact hdigits (by decide)
  | ascii =>
    rintro c (_ | ⟨_, hc⟩)
    · decide
    · exact hdigits (by decide) c hc

theorem exists_subscript_eq {style : StringNotation} (hstyle : style ≠ .tex) (index : ℕ) :
    ∃ c tail, style.subscript index = c :: tail ∧ sparseMarks.contains c = true ∧
      ∀ c ∈ style.subscript index, isWhitespace c = false := by
  obtain ⟨d, ds, hds⟩ := exists_cons_of_ne_nil (Decimal.digits_ne_nil index)
  have hlt : ∀ e ∈ d :: ds, e < 10 := fun e he => Decimal.lt_ten_of_mem_digits (hds ▸ he)
  have hblank : ∀ {digit : ℕ → Char}, (∀ d < 10, isWhitespace (digit d) = false) →
      ∀ c ∈ (d :: ds).map digit, isWhitespace c = false := by
    intro digit hdigit c hc
    obtain ⟨e, he, rfl⟩ := mem_map.mp hc
    exact hdigit e (hlt e he)
  cases style with
  | tex => exact absurd rfl hstyle
  | unicode =>
    have hmark : ∀ d < 10, sparseMarks.contains (subscriptDigit d) = true := by decide
    rw [StringNotation.subscript, hds]
    exact ⟨_, _, rfl, hmark d (hlt d (by simp)), hblank (by decide)⟩
  | ascii =>
    rw [StringNotation.subscript, hds]
    refine ⟨_, _, rfl, by decide, ?_⟩
    rintro c (_ | ⟨_, hc⟩)
    · decide
    · exact hblank (by decide) c hc

/-- A text neither starts nor ends with white space. -/
def NoBlankEnds (text : List Char) : Prop :=
  (∀ c ∈ text.head?, isWhitespace c = false) ∧ ∀ c ∈ text.getLast?, isWhitespace c = false

variable {text : List Char}

theorem dropWhile_eq_self_of_head? (h : ∀ c ∈ text.head?, isWhitespace c = false) :
    text.dropWhile isWhitespace = text := by
  cases text with
  | nil => rfl
  | cons c text => rw [dropWhile_cons_of_neg (by simp [h c rfl])]

theorem NoBlankEnds.trim_eq (h : NoBlankEnds text) : trim text = text := by
  have hlast : ∀ c ∈ text.reverse.head?, isWhitespace c = false := by
    rw [head?_reverse]
    exact h.2
  rw [trim, dropWhile_eq_self_of_head? h.1, dropWhile_eq_self_of_head? hlast, reverse_reverse]

theorem NoBlankEnds.append {a b : List Char} (ha : NoBlankEnds a) (hb : NoBlankEnds b)
    (hne : b ≠ []) : NoBlankEnds (a ++ b) := by
  constructor
  · cases a with
    | nil => exact hb.1
    | cons c a => exact ha.1
  · rw [getLast?_append_of_ne_nil a hne]
    exact hb.2

theorem noBlankEnds_of_forall (h : ∀ c ∈ text, isWhitespace c = false) : NoBlankEnds text :=
  ⟨fun c hc => h c (mem_of_mem_head? hc), fun c hc => h c (mem_of_getLast? hc)⟩

variable {phaseExp : UInt8}

theorem characters_sign {sign : List Char} (h : (sign, phaseExp) ∈ ([], 0) :: phasePrefixes) :
    ∀ c ∈ sign, isWhitespace c = false ∧ isMappingCharacter c = false := by
  simp only [phasePrefixes, mem_cons, not_mem_nil, or_false, Prod.mk.injEq] at h
  rcases h with ⟨rfl, -⟩ | ⟨rfl, -⟩ | ⟨rfl, -⟩ | ⟨rfl, -⟩ | ⟨rfl, -⟩ | ⟨rfl, -⟩ | ⟨rfl, -⟩ |
    ⟨rfl, -⟩ | ⟨rfl, -⟩
  all_goals decide

theorem noBlankEnds_sign {sign : List Char} (h : (sign, phaseExp) ∈ ([], 0) :: phasePrefixes) :
    NoBlankEnds sign :=
  noBlankEnds_of_forall fun c hc => (characters_sign h c hc).1

/-- A printed text denotes an operator, and has nothing that a list of images splits or trims. -/
structure Prints (bound : ℕ) (text : List Char) (P : PhasedPauli) : Prop where
  sentence : PauliSentence bound text P
  noBlankEnds : NoBlankEnds text
  ne_nil : text ≠ []
  not_mapping : ∀ c ∈ text, isMappingCharacter c = false

variable {bound : ℕ}

theorem prints_append {sign body : List Char} {Q : PhasedPauli}
    (hsign : (sign, phaseExp) ∈ ([], 0) :: phasePrefixes) (hbody : PauliBody bound body Q)
    (hblank : NoBlankEnds body) (hne : body ≠ [])
    (hmapping : ∀ c ∈ body, isMappingCharacter c = false) :
    Prints bound (sign ++ body) (iPow (phaseResidue phaseExp) * Q) where
  sentence := ⟨sign, phaseExp, body, Q, hsign,
    ((noBlankEnds_sign hsign).append hblank hne).trim_eq, hbody, rfl⟩
  noBlankEnds := (noBlankEnds_sign hsign).append hblank hne
  ne_nil := append_ne_nil_of_right_ne_nil sign hne
  not_mapping := by
    intro c hc
    rcases mem_append.mp hc with hc | hc
    · exact (characters_sign hsign c hc).2
    · exact hmapping c hc

theorem head?_intercalate (separator : List Char) (hne : text ≠ []) (texts : List (List Char)) :
    (separator.intercalate (text :: texts)).head? = text.head? := by
  obtain ⟨c, text, rfl⟩ := exists_cons_of_ne_nil hne
  rw [intercalate_cons_cons_left]
  rfl

variable {texts : List (List Char)}

theorem exists_getLast?_intercalate (separator : List Char) (hne : ∀ t ∈ text :: texts, t ≠ []) :
    ∃ t ∈ text :: texts, (separator.intercalate (text :: texts)).getLast? = t.getLast? := by
  induction texts generalizing text with
  | nil => exact ⟨text, by simp, by simp⟩
  | cons next texts ih =>
    obtain ⟨t, ht, hlast⟩ := ih fun t (ht : t ∈ next :: texts) => hne t (mem_cons_of_mem _ ht)
    obtain ⟨c, tail, hnext⟩ := exists_cons_of_ne_nil (hne next (by simp))
    refine ⟨t, mem_cons_of_mem _ ht, ?_⟩
    rw [intercalate_cons_cons, getLast?_append_of_ne_nil, hlast]
    rw [hnext, intercalate_cons_cons_left]
    exact cons_ne_nil _ _

theorem noBlankEnds_intercalate {separator : List Char} (h : ∀ t ∈ texts, NoBlankEnds t ∧ t ≠ []) :
    NoBlankEnds (separator.intercalate texts) := by
  cases texts with
  | nil => exact noBlankEnds_of_forall (by simp)
  | cons text texts =>
    obtain ⟨t, ht, hlast⟩ := exists_getLast?_intercalate separator fun t ht => (h t ht).2
    constructor
    · rw [head?_intercalate _ (h text (by simp)).2]
      exact (h text (by simp)).1.1
    · rw [hlast]
      exact (h t ht).1.2

theorem mem_intercalate {separator : List Char} {c : Char} (h : c ∈ separator.intercalate texts) :
    c ∈ separator ∨ ∃ t ∈ texts, c ∈ t := by
  induction texts with
  | nil => simp at h
  | cons text texts ih =>
    rcases eq_or_ne texts [] with rfl | hne
    · rw [intercalate_singleton] at h
      exact .inr ⟨text, by simp, h⟩
    · rw [intercalate_cons_of_ne_nil hne, mem_append, mem_append] at h
      rcases h with (h | h) | h
      · exact .inr ⟨text, by simp, h⟩
      · exact .inl h
      · rcases ih h with hseparator | ⟨t, ht, hc⟩
        · exact .inl hseparator
        · exact .inr ⟨t, mem_cons_of_mem _ ht, hc⟩

section Entries

variable {style : StringNotation} (hstyle : style ≠ .tex) {entries : List (ℕ × Char)}

/-- The text of one letter with its index. -/
def entryText (style : StringNotation) (entry : ℕ × Char) : List Char :=
  entry.2 :: style.subscript entry.1

include hstyle

theorem filter_entriesText (hletters : ∀ entry ∈ entries, isSeparator entry.2 = false) :
    (style.separator.intercalate (entries.map (entryText style))).filter (fun c => !isSeparator c) =
      entries.flatMap fun entry => entry.2 :: style.numeral entry.1 := by
  have hseparator : style.separator.filter (fun c => !isSeparator c) = [] := by
    cases style <;> decide
  induction entries with
  | nil => rfl
  | cons entry entries ih =>
    have hentry : (entryText style entry).filter (fun c => !isSeparator c) =
        entry.2 :: style.numeral entry.1 := by
      rw [entryText, filter_cons_of_pos (by simp [hletters entry]), filter_subscript hstyle]
    have hrest := ih fun e he => hletters e (by simp [he])
    rw [map_cons, flatMap_cons]
    rcases eq_or_ne entries [] with rfl | hne
    · simpa using hentry
    · rw [intercalate_cons_of_ne_nil (by simpa using hne), filter_append,
        filter_append, hentry, hseparator, hrest, append_nil]

theorem noBlankEnds_entriesText (hletters : ∀ entry ∈ entries, isWhitespace entry.2 = false) :
    NoBlankEnds (style.separator.intercalate (entries.map (entryText style))) := by
  refine noBlankEnds_intercalate fun t ht => ?_
  obtain ⟨entry, hentry, rfl⟩ := mem_map.mp ht
  refine ⟨noBlankEnds_of_forall ?_, cons_ne_nil _ _⟩
  rintro c (_ | ⟨_, hc⟩)
  · exact hletters entry hentry
  · obtain ⟨_, _, _, _, hblank⟩ := exists_subscript_eq hstyle entry.1
    exact hblank c hc

theorem not_mapping_entriesText (hletters : ∀ entry ∈ entries, isMappingCharacter entry.2 = false) :
    ∀ c ∈ style.separator.intercalate (entries.map (entryText style)),
      isMappingCharacter c = false := by
  have hseparator : ∀ c ∈ style.separator, isMappingCharacter c = false := by
    cases style <;> decide
  intro c hc
  rcases mem_intercalate hc with hc | ⟨t, ht, hc⟩
  · exact hseparator c hc
  · obtain ⟨entry, hentry, rfl⟩ := mem_map.mp ht
    rcases mem_cons.mp hc with rfl | hc
    · exact hletters entry hentry
    · exact not_mapping_subscript hstyle entry.1 c hc

omit hstyle in
theorem sparseFactors_entries (hletters : ∀ entry ∈ entries, entry.2 ∈ ['X', 'Y', 'Z']) :
    SparseFactors (entries.flatMap fun entry => entry.2 :: style.numeral entry.1)
      (entries.map fun entry => (entry.2, entry.1)) := by
  induction entries with
  | nil => exact .nil
  | cons entry entries ih =>
    have hletter : isPauliLetter entry.2 = true ∧ entry.2.toUpper = entry.2 := by
      have hmem := hletters entry (by simp)
      generalize entry.2 = c at hmem
      revert c
      decide
    have hrest := SparseFactors.cons hletter.1 (Decimal.digits_ne_nil entry.1)
      (map_getDigit_numeral style entry.1) (ih fun e he => hletters e (by simp [he]))
    rw [hletter.2, Decimal.value_digits] at hrest
    exact hrest

theorem pauliBody_entriesText (hletters : ∀ entry ∈ entries, entry.2 ∈ ['X', 'Y', 'Z'])
    (hne : entries ≠ []) (hbound : ∀ entry ∈ entries, entry.1 < bound) :
    PauliBody bound (style.separator.intercalate (entries.map (entryText style)))
      (sparseOperator (entries.map fun entry => (entry.2, entry.1))) := by
  have hseparator : ∀ c ∈ ['X', 'Y', 'Z'], isSeparator c = false := by decide
  have hfilter := filter_entriesText hstyle fun entry hentry =>
    hseparator entry.2 (hletters entry hentry)
  refine .sparse ?_ (hfilter ▸ sparseFactors_entries hletters) ?_
  · obtain ⟨entry, entries, rfl⟩ := exists_cons_of_ne_nil hne
    obtain ⟨c, tail, hsubscript, hmark, -⟩ := exists_subscript_eq hstyle entry.1
    rw [map_cons, entryText, hsubscript, intercalate_cons_cons_left, intercalate_cons_cons_left]
    exact hmark
  · intro entry hentry
    obtain ⟨e, he, rfl⟩ := mem_map.mp hentry
    exact hbound e he

end Entries

namespace StoredPauli

variable {k : BitsKind} {p : StoredPauli k}

/-- The storage of each bit set reaches the bits of the other one. -/
def SupportFits (p : StoredPauli k) : Prop :=
  PauliBits.Holds p.zBits.capacity p.xBits.toBits ∧ PauliBits.Holds p.xBits.capacity p.zBits.toBits

theorem supportFits_of_capacity_eq (h : p.xBits.capacity = p.zBits.capacity) : p.SupportFits :=
  ⟨h ▸ p.xBits.holds_capacity, h ▸ p.zBits.holds_capacity⟩

theorem iPow_mul_eq_toPhased (p : StoredPauli k) {count : ℕ} {e : ZMod 4}
    (he : e = phaseResidue p.xzPhaseExp - count) :
    iPow e * ⟨(count : ZMod 4), p.xBits.toBits, p.zBits.toBits⟩ = p.toPhased := by
  ext1
  · simp [he, toPhased, toPauliUnitary]
  · simp [toPhased, toPauliUnitary]
  · simp [toPhased, toPauliUnitary]

/-- The number of letters of a dense text that shows the whole support. -/
def lastIndex (p : StoredPauli k) : ℕ :=
  (p.maxSupport.map (· + 1)).getD 0

variable {i : ℕ}

theorem lt_lastIndex (h : p.xBits.toBits.index i = true ∨ p.zBits.toBits.index i = true) :
    i < p.lastIndex := by
  have hnone : ∀ {s : PauliBits k}, s.maxSupport = none → s.toBits.index i ≠ true := by
    intro s hs
    rw [index_eq_false_of_maxSupport hs i]
    exact Bool.false_ne_true
  unfold lastIndex maxSupport
  cases hx : p.xBits.maxSupport with
  | none =>
    have hz := h.resolve_left (hnone hx)
    cases hm : p.zBits.maxSupport with
    | none => exact absurd hz (hnone hm)
    | some m =>
      have hle := (maxSupport_spec hm).2 i hz
      exact Nat.lt_succ_of_le hle
  | some l =>
    cases hz : p.zBits.maxSupport with
    | none =>
      have hle := (maxSupport_spec hx).2 i (h.resolve_right (hnone hz))
      exact Nat.lt_succ_of_le hle
    | some m =>
      refine Nat.lt_succ_of_le ?_
      rcases h with h | h
      · exact ((maxSupport_spec hx).2 i h).trans (le_max_left l m)
      · exact ((maxSupport_spec hz).2 i h).trans (le_max_right l m)

theorem exists_last (h : p.lastIndex ≠ 0) : ∃ m, p.lastIndex = m + 1 ∧
      (p.xBits.toBits.index m = true ∨ p.zBits.toBits.index m = true) := by
  unfold lastIndex maxSupport at h ⊢
  cases hx : p.xBits.maxSupport with
  | none =>
    cases hz : p.zBits.maxSupport with
    | none =>
      rw [hx, hz] at h
      exact absurd rfl h
    | some m => exact ⟨m, rfl, .inr (maxSupport_spec hz).1⟩
  | some l =>
    cases hz : p.zBits.maxSupport with
    | none => exact ⟨l, rfl, .inl (maxSupport_spec hx).1⟩
    | some m =>
      refine ⟨max l m, rfl, ?_⟩
      rcases max_cases l m with ⟨heq, -⟩ | ⟨heq, -⟩
      · rw [heq]
        exact .inl (maxSupport_spec hx).1
      · rw [heq]
        exact .inr (maxSupport_spec hz).1

theorem SupportFits.reaches (h : p.SupportFits) (hi : i < p.lastIndex) : p.Reaches i := by
  obtain ⟨m, hm, hsupport⟩ := exists_last (p := p) (by omega)
  have hreach : p.Reaches m := by
    rcases hsupport with hx | hz
    · exact ⟨fun n hn => (p.xBits.holds_capacity n hn).lt_of_index hx,
        fun n hn => (h.1 n hn).lt_of_index hx⟩
    · exact ⟨fun n hn => (h.2 n hn).lt_of_index hz,
        fun n hn => (p.zBits.holds_capacity n hn).lt_of_index hz⟩
  have hle : i ≤ m := by omega
  exact ⟨fun n hn => hle.trans_lt (hreach.1 n hn), fun n hn => hle.trans_lt (hreach.2 n hn)⟩

theorem letterAt_eq (h : p.Reaches i) :
    p.letterAt i = some (p.xBits.toBits.index i, p.zBits.toBits.index i) := by
  simp [letterAt, index_eq h.1, index_eq h.2]

theorem mapM_letterAt (h : ∀ i ∈ l, p.Reaches i) :
    l.mapM p.letterAt = some (l.map fun i => (p.xBits.toBits.index i, p.zBits.toBits.index i)) :=
  mapM_eq_some fun i hi => letterAt_eq (h i hi)

theorem denseOperator_range' (letter : ℕ → Bool × Bool) (start count : ℕ) :
    denseOperator ((List.range' start count).map fun i => character (letter i)) start =
      ((List.range' start count).map fun i => pauliFactor (character (letter i)) i).prod := by
  induction count generalizing start with
  | zero => rfl
  | succ count ih =>
    have hupper : (character (letter start)).toUpper = character (letter start) := by
      rcases letter start with ⟨_ | _, _ | _⟩ <;> rfl
    rw [range'_succ, map_cons, denseOperator, hupper, ih, map_cons, prod_cons]

variable {style : StringNotation} {signPlus : Bool}

theorem prints_identity {phase : UInt8} (hstyle : style ≠ .tex) :
    Prints bound (formatPhasePrefix (some phase) 0 signPlus style ++ ['I'])
      (iPow (phaseResidue phase)) := by
  obtain ⟨phaseExp, hsign, hresidue⟩ := exists_phaseExp phase 0 signPlus hstyle
  have hbody : PauliBody bound ['I'] (denseOperator ['I'] 0) := .dense (by decide)
  have hprints := prints_append hsign hbody (noBlankEnds_of_forall (by decide))
    (cons_ne_nil _ _) (by decide)
  have hone : denseOperator ['I'] 0 = 1 := by simp [denseOperator, pauliFactor]
  rw [hone, mul_one, hresidue] at hprints
  have hzero : phaseResidue 0 = 0 := rfl
  rwa [hzero, add_zero] at hprints

theorem toPhased_of_bits_eq_zero (hx : p.xBits.toBits = 0) (hz : p.zBits.toBits = 0) :
    p.toPhased = iPow (phaseResidue p.xzPhaseExp) := by
  ext1
  · rfl
  · exact hx
  · exact hz

theorem prints_formatDensePauli (hfits : p.SupportFits) (hstyle : style ≠ .tex) :
    ∃ text, p.formatDensePauli (some (phaseValue p.xzPhaseExp)) style none signPlus = some text ∧
      Prints bound text p.toPhased := by
  have hlast : (none : Option ℕ).getD ((p.maxSupport.map (· + 1)).getD 0) = p.lastIndex := rfl
  unfold formatDensePauli
  rw [hlast]
  rcases eq_or_ne p.lastIndex 0 with hzero | hpos
  · have hbits : ∀ {b : Bits}, (∀ i, b.index i = true → i < p.lastIndex) → b = 0 := by
      intro b hb
      refine ext_index fun i => ?_
      by_contra hi
      have hlt := hb i (by simpa using hi)
      omega
    refine ⟨_, if_pos hzero, ?_⟩
    rw [toPhased_of_bits_eq_zero (hbits fun i hi => lt_lastIndex (.inl hi))
      (hbits fun i hi => lt_lastIndex (.inr hi)), ← phaseResidue_phaseValue]
    exact prints_identity hstyle
  · have hreaches : ∀ i ∈ List.range p.lastIndex, p.Reaches i := fun i hi =>
      hfits.reaches (mem_range.mp hi)
    rw [if_neg hpos, mapM_letterAt hreaches]
    refine ⟨_, rfl, ?_⟩
    generalize hletters : ((List.range p.lastIndex).map fun i =>
      (p.xBits.toBits.index i, p.zBits.toBits.index i)) = letters
    obtain ⟨phaseExp, hsign, hresidue⟩ := exists_phaseExp
      (phaseValue p.xzPhaseExp) (extraPhase letters) signPlus hstyle
    have hdense : ∀ c ∈ letters.map character, isDenseCharacter c = true := by
      intro c hc
      obtain ⟨⟨a, b⟩, -, rfl⟩ := mem_map.mp hc
      cases a <;> cases b <;> decide
    have hblank : ∀ c ∈ letters.map character, isWhitespace c = false := by
      intro c hc
      obtain ⟨⟨a, b⟩, -, rfl⟩ := mem_map.mp hc
      cases a <;> cases b <;> decide
    have hne : letters.map character ≠ [] := by
      subst hletters
      simpa using hpos
    have hmapping : ∀ c ∈ letters.map character, isMappingCharacter c = false := by
      intro c hc
      obtain ⟨⟨a, b⟩, -, rfl⟩ := mem_map.mp hc
      cases a <;> cases b <;> decide
    have hbody : PauliBody bound (letters.map character)
      (denseOperator (letters.map character) 0) :=
      .dense hdense
    have hprints := prints_append hsign hbody (noBlankEnds_of_forall hblank) hne hmapping
    have hproduct : denseOperator (letters.map character) 0 =
        ⟨((letters.countP fun letter => letter.1 && letter.2 : ℕ) : ZMod 4), p.xBits.toBits,
          p.zBits.toBits⟩ := by
      rw [← hletters, map_map, countP_map]
      refine Eq.trans ?_ (prod_pauliFactor_of_covers nodup_range
        (fun i hi => mem_range.mpr (lt_lastIndex (.inl hi)))
        (fun i hi => mem_range.mpr (lt_lastIndex (.inr hi))))
      rw [range_eq_range']
      exact denseOperator_range' _ 0 p.lastIndex
    rw [hproduct, p.iPow_mul_eq_toPhased] at hprints
    · exact hprints
    · rw [hresidue, phaseResidue_phaseValue, extraPhase, phaseResidue_foldl, ← add_sub_assoc]
      have hzero : phaseResidue 0 = 0 := rfl
      rw [hzero, add_zero]

/-- The qubits of the support in ascending order. -/
def sortedSupport (p : StoredPauli k) : List ℕ :=
  (p.xBits.support ++ p.zBits.support).toFinset.sort

theorem mem_sortedSupport :
    i ∈ p.sortedSupport ↔ p.xBits.toBits.index i = true ∨ p.zBits.toBits.index i = true := by
  rw [sortedSupport, Finset.mem_sort, mem_toFinset, mem_append, PauliBits.mem_support,
    PauliBits.mem_support]

theorem contains_support (s : PauliBits k) (i : ℕ) : s.support.contains i = s.toBits.index i := by
  rw [Bool.eq_iff_iff, contains_iff_mem, PauliBits.mem_support]

theorem stringMap_snd (p : StoredPauli k) : p.stringMap.2 = p.sortedSupport.map fun i =>
      (i, character (p.xBits.toBits.index i, p.zBits.toBits.index i)) := by
  simp only [stringMap, contains_support]
  rfl

theorem letter_mem_of_mem_sortedSupport (hi : i ∈ p.sortedSupport) :
    character (p.xBits.toBits.index i, p.zBits.toBits.index i) ∈ ['X', 'Y', 'Z'] := by
  rw [mem_sortedSupport] at hi
  revert hi
  cases p.xBits.toBits.index i <;> cases p.zBits.toBits.index i <;> decide

/-- The number of letters `Y`. -/
def yCount (p : StoredPauli k) : ℕ :=
  (Bits.inter p.xBits.toBits p.zBits.toBits).support.length

theorem phaseResidue_stringMap (p : StoredPauli k) :
    phaseResidue p.stringMap.1 = -(p.yCount : ZMod 4) := by
  have hcount : p.zBits.support.countP (fun i => p.xBits.support.contains i) = p.yCount := by
    have hcongr : p.zBits.support.countP (fun i => p.xBits.support.contains i) =
        p.zBits.support.countP fun i => p.zBits.toBits.index i && p.xBits.toBits.index i := by
      refine countP_congr fun i hi => ?_
      rw [contains_support, mem_support.mp hi, Bool.true_and]
    rw [hcongr, countP_eq_length_support p.zBits.nodup_support
      (fun i => mem_support.mpr), inter_comm]
    rfl
  change phaseResidue (p.zBits.support.foldl _ 0) = _
  rw [phaseResidue_foldl, hcount]
  exact zero_sub _

theorem sparseOperator_stringMap (p : StoredPauli k) :
    sparseOperator (p.stringMap.2.map fun entry => (entry.2, entry.1)) =
      ⟨(p.yCount : ZMod 4), p.xBits.toBits, p.zBits.toBits⟩ := by
  have hnodup : p.sortedSupport.reverse.Nodup :=
    nodup_reverse.mpr (Finset.sort_nodup _ _)
  have hx : ∀ i, p.xBits.toBits.index i = true → i ∈ p.sortedSupport.reverse := fun i hi =>
    mem_reverse.mpr (mem_sortedSupport.mpr (.inl hi))
  have hz : ∀ i, p.zBits.toBits.index i = true → i ∈ p.sortedSupport.reverse := fun i hi =>
    mem_reverse.mpr (mem_sortedSupport.mpr (.inr hi))
  have hproduct := prod_pauliFactor_of_covers hnodup hx hz
  rw [countP_eq_length_support hnodup hx] at hproduct
  rw [sparseOperator, stringMap_snd, map_map, ← map_reverse, map_map]
  exact hproduct

theorem prints_formatSparsePauli (p : StoredPauli k) (hbound : p.toPauliUnitary.Below bound)
    (hstyle : style ≠ .tex) : Prints bound
      (p.formatSparsePauli (some (phaseValue p.xzPhaseExp)) style signPlus) p.toPhased := by
  have hentries := p.stringMap_snd
  have hphase := p.phaseResidue_stringMap
  have hoperator := p.sparseOperator_stringMap
  unfold formatSparsePauli
  generalize p.stringMap = map at hentries hphase hoperator ⊢
  obtain ⟨extraPhase, entries⟩ := map
  dsimp only at hentries hphase hoperator ⊢
  rcases eq_or_ne entries [] with hnil | hne
  · have hempty : p.sortedSupport = [] := map_eq_nil_iff.mp (hentries.symm.trans hnil)
    have hbits : ∀ {b : Bits}, (∀ i, b.index i = true → i ∈ p.sortedSupport) → b = 0 := by
      intro b hb
      refine ext_index fun i => ?_
      by_contra hi
      have hmem := hb i (by simpa using hi)
      rw [hempty] at hmem
      cases hmem
    rw [if_pos hnil, toPhased_of_bits_eq_zero
      (hbits fun i hi => mem_sortedSupport.mpr (.inl hi))
      (hbits fun i hi => mem_sortedSupport.mpr (.inr hi)), ← phaseResidue_phaseValue]
    exact prints_identity hstyle
  · rw [if_neg hne]
    obtain ⟨phaseExp, hsign, hresidue⟩ := exists_phaseExp
      (phaseValue p.xzPhaseExp) extraPhase signPlus hstyle
    have hletters : ∀ entry ∈ entries, entry.2 ∈ ['X', 'Y', 'Z'] := by
      intro entry hentry
      rw [hentries] at hentry
      obtain ⟨i, hi, rfl⟩ := mem_map.mp hentry
      exact letter_mem_of_mem_sortedSupport hi
    have hlt : ∀ entry ∈ entries, entry.1 < bound := by
      intro entry hentry
      rw [hentries] at hentry
      obtain ⟨i, hi, rfl⟩ := mem_map.mp hentry
      rcases mem_sortedSupport.mp hi with hx | hz
      · exact hbound.1.lt_of_index hx
      · exact hbound.2.lt_of_index hz
    have hblank : ∀ c ∈ ['X', 'Y', 'Z'], isWhitespace c = false := by decide
    have hbody := pauliBody_entriesText hstyle hletters hne hlt
    have hnonempty : style.separator.intercalate (entries.map (entryText style)) ≠ [] := by
      obtain ⟨entry, entries, rfl⟩ := exists_cons_of_ne_nil hne
      rw [map_cons, entryText, intercalate_cons_cons_left]
      exact cons_ne_nil _ _
    have hplain : ∀ c ∈ ['X', 'Y', 'Z'], isMappingCharacter c = false := by decide
    have hprints := prints_append hsign hbody
      (noBlankEnds_entriesText hstyle fun entry hentry => hblank entry.2 (hletters entry hentry))
      hnonempty
      (not_mapping_entriesText hstyle fun entry hentry => hplain entry.2 (hletters entry hentry))
    rw [hoperator, p.iPow_mul_eq_toPhased] at hprints
    · exact hprints
    · rw [hresidue, phaseResidue_phaseValue, hphase, ← sub_eq_add_neg]

theorem prints_formatPauli (hfits : p.SupportFits)
    (hbound : p.toPauliUnitary.Below bound) (layout : StringLayout)
    (hstyle : style ≠ .tex) (signPlus : Bool) :
    ∃ text, p.formatPauli (some (phaseValue p.xzPhaseExp)) layout style none signPlus = some text ∧
      Prints bound text p.toPhased := by
  cases layout with
  | dense => exact prints_formatDensePauli hfits hstyle
  | sparse => exact ⟨_, rfl, p.prints_formatSparsePauli hbound hstyle⟩

theorem eq_of_equalsTo {p q : StoredPauli .indexSet}
    (h : q.toPauliUnitary.equalsTo p.toPauliUnitary = true) : q.eq p = true := by
  have hinjective : ∀ {s t : PauliBits .indexSet}, s.toBits = t.toBits → s.eq t = true := by
    rintro ⟨s⟩ ⟨t⟩ hbits
    refine beq_iff_eq.mpr (congrArg IndexSet.mk (Finset.ext fun i => ?_))
    have hindex := congrArg (fun b => Bits.index b i) hbits
    simpa [PauliBits.toBits, IndexSet.index] using hindex
  simp only [equalsTo, Bool.and_eq_true, beq_iff_eq] at h
  obtain ⟨hphase, hx, hz⟩ := h
  simp only [eq, Bool.and_eq_true, beq_iff_eq]
  exact ⟨hphase, hinjective hx, hinjective hz⟩

/-- Printing and parsing gives the Pauli back, up to trailing identities of a dense one.  A text of
the grammar is parsed as the Pauli that it denotes, and any other text is rejected. -/
theorem pauliFromStr_toStringWith :
    (∀ (p : StoredPauli .indexSet) (layout : StringLayout) (style : StringNotation),
      p.toPauliUnitary.Below (indexBound - 1) → style ≠ .tex →
        ∃ text q, p.toStringWith layout style = some text ∧
          pauliFromStr .indexSet text = some (.ok q) ∧ q.eq p = true) ∧
    (∀ (p : StoredPauli .aligned) (layout : StringLayout) (style : StringNotation),
      p.SupportFits → p.toPauliUnitary.Below (indexBound - 1) → style ≠ .tex →
        ∃ text q, p.toStringWith layout style = some text ∧
          pauliFromStr .aligned text = some (.ok q) ∧
            q.toPauliUnitary.equalsTo p.toPauliUnitary = true) ∧
    (∀ (k : BitsKind) (text : List Char) (P : PhasedPauli),
      PauliSentence (indexBound - 1) text P → Parses (pauliFromStr k text) P) ∧
    ∀ (k : BitsKind) (text : List Char),
      (∀ P, ¬ PauliSentence indexBound text P) → Rejects (pauliFromStr k text) := by
  have hround : ∀ {k : BitsKind} (p : StoredPauli k) (layout : StringLayout)
      (style : StringNotation), p.SupportFits → p.toPauliUnitary.Below (indexBound - 1) →
        style ≠ .tex → ∃ text q, p.toStringWith layout style = some text ∧
          pauliFromStr k text = some (.ok q) ∧
            q.toPauliUnitary.equalsTo p.toPauliUnitary = true := by
    intro k p layout style hfits hbound hstyle
    obtain ⟨text, htext, hprints⟩ := prints_formatPauli hfits hbound layout hstyle false
    obtain ⟨q, hq, hqP⟩ := pauliFromStr_parses k hprints.sentence
    exact ⟨text, q, htext, hq, equalsTo_iff.mpr hqP⟩
  refine ⟨fun p layout style hbound hstyle => ?_, hround, fun k _ _ => pauliFromStr_parses k,
    fun k _ => pauliFromStr_rejects k⟩
  have hcapacity : ∀ s : PauliBits .indexSet, s.capacity = none := by
    rintro ⟨s⟩
    rfl
  have hfits : p.SupportFits :=
    supportFits_of_capacity_eq ((hcapacity p.xBits).trans (hcapacity p.zBits).symm)
  obtain ⟨text, q, htext, hq, hequal⟩ := hround p layout style hfits hbound hstyle
  exact ⟨text, q, htext, hq, eq_of_equalsTo hequal⟩

theorem pauliFromStr_toStringWith_examples :
    (∃ text q, (⟨.indexSet ⟨{0}⟩, .indexSet ⟨{0, 12}⟩, 3⟩ : StoredPauli .indexSet).toStringWith
        .sparse .ascii = some text ∧ pauliFromStr .indexSet text = some (.ok q) ∧
          q.eq ⟨.indexSet ⟨{0}⟩, .indexSet ⟨{0, 12}⟩, 3⟩ = true) ∧
    (∃ text q,
      (⟨.aligned (oneBlock 1), .aligned (oneBlock 3), 2⟩ : StoredPauli .aligned).toStringWith
        .dense .unicode = some text ∧ pauliFromStr .aligned text = some (.ok q) ∧
          q.toPauliUnitary.equalsTo
            (⟨.aligned (oneBlock 1), .aligned (oneBlock 3),
              2⟩ : StoredPauli .aligned).toPauliUnitary =
              true) ∧ Parses (pauliFromStr .indexSet ['-', 'X', 'Z'])
      (iPow (PauliUnitary.phaseResidue 2) * denseOperator ['X', 'Z'] 0) ∧
    Rejects (pauliFromStr .aligned ['Q']) := by
  refine ⟨pauliFromStr_toStringWith.1 _ _ _ ?_ (by decide),
    pauliFromStr_toStringWith.2.1 _ _ _ (supportFits_of_capacity_eq rfl) ?_ (by decide),
    pauliFromStr_toStringWith.2.2.1 _ _ _ ?_, pauliFromStr_toStringWith.2.2.2 _ _ ?_⟩
  · refine PhasedPauli.Below.mono (m := 13) ?_ (by decide)
    exact ⟨IndexSet.below_toBits_iff.mpr (by simp), IndexSet.below_toBits_iff.mpr (by simp)⟩
  · exact PhasedPauli.Below.mono (m := 2) (by decide) (by decide)
  · exact ⟨['-'], 2, ['X', 'Z'], _, by decide, by decide, .dense (by decide), rfl⟩
  · intro P hP
    obtain ⟨Q, hbody, -⟩ := pauliSentence_iff.mp hP
    cases hbody with
    | dense hbody =>
      revert hbody
      decide
    | sparse hmark _ _ =>
      revert hmark
      decide

def xInTwoBlocks : StoredPauli .aligned where
  xBits := .aligned ⟨1 :: List.replicate 15 0, by decide⟩
  zBits := .aligned ⟨List.replicate 16 0, by decide⟩
  xzPhaseExp := 0

/-- The text of a dense Pauli does not show how many blocks store it. -/
theorem not_pauliFromStr_toStringWith_eq :
    ¬ ∀ p : StoredPauli .aligned, p.xBits.capacity = p.zBits.capacity →
      ∃ text q, p.toStringWith .dense .ascii = some text ∧
        pauliFromStr .aligned text = some (.ok q) ∧ q.eq p = true := by
  intro h
  obtain ⟨text, q, htext, hq, heq⟩ := h xInTwoBlocks rfl
  have hprinted : xInTwoBlocks.toStringWith .dense .ascii = some ['X'] := by decide
  obtain rfl := Option.some_inj.mp (hprinted.symm.trans htext)
  have hparsed : ∃ q', pauliFromStr .aligned ['X'] = some (.ok q') ∧
      q'.eq xInTwoBlocks = false :=
    ⟨_, rfl, by decide⟩
  obtain ⟨q', hq', hne⟩ := hparsed
  obtain rfl := Except.ok.inj (Option.some_inj.mp (hq'.symm.trans hq))
  rw [hne] at heq
  cases heq

end StoredPauli

end QdkEc
