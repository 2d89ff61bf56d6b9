import Hakutaku.CanonicalPath

/-!
# The path grammar (`FORMAT.md`)

The rules a package path obeys, stated over its `/`-separated components, and what `validate_canonical_path`
makes of them. The two agree but for the control character U+007F, which the function lets through.
-/

namespace Hakutaku

/-! ### The grammar -/

/-- U+0000..U+001F and U+007F. -/
def AsciiControl (c : Char) : Prop := c.toNat < 0x20 ∨ c.toNat = 0x7F

/-- The last of the ASCII control characters. -/
def delChar : Char := '\x7f'

def SameIgnoringCase (a b : List Char) : Prop := a.map Char.toLower = b.map Char.toLower

/-- The device names of Windows. -/
inductive DeviceName (stem : List Char) : Prop
  | plain (name : String) (hname : name ∈ ["CON", "PRN", "AUX", "NUL"]) (h : SameIgnoringCase stem name.toList)
  | numbered (port : String) (hport : port ∈ ["COM", "LPT"]) (given : List Char) (digit : Char)
      (hdigit : digit ∈ "123456789¹²³".toList) (h : SameIgnoringCase given port.toList) (hstem : stem = given ++ [digit])

/-- The rules for one component, with `control` for the control characters. -/
structure PathComponent (control : Char → Prop) (part : List Char) : Prop where
  nonempty : part ≠ []
  dots : part ≠ ['.'] ∧ part ≠ ['.', '.']
  first : part.head? ≠ some ' '
  last : part.getLast? ≠ some ' ' ∧ part.getLast? ≠ some '.'
  chars : ∀ c ∈ part, c ≠ '\\' ∧ ¬ control c ∧ c ∉ "<>:\"|?*".toList
  device : ¬ DeviceName (part.takeWhile (· ≠ '.'))

/-- The rules for a whole path. -/
structure PathRules (control : Char → Prop) (path : String) : Prop where
  nonempty : path ≠ ""
  components : ∀ part ∈ path.toList.splitOn '/', PathComponent control part

/-! ### Components of a path -/

theorem mem_splitOn {c sep : Char} (hne : c ≠ sep) (cs : List Char) :
    (∃ part ∈ cs.splitOn sep, c ∈ part) ↔ c ∈ cs := by
  induction cs with
  | nil => simp
  | cons d cs ih =>
    rw [List.splitOn, List.splitOnP_cons_eq_if_modifyHead]
    rw [List.splitOn] at ih
    split
    · rename_i hd
      obtain rfl : d = sep := by simpa using hd
      rw [List.mem_cons, ← ih]
      simp [hne]
    · obtain ⟨first, rest, hsplit⟩ := List.exists_cons_of_ne_nil (List.splitOnP_ne_nil (· == sep) cs)
      rw [hsplit] at ih ⊢
      simp only [List.modifyHead_cons, List.mem_cons, exists_eq_or_imp] at ih ⊢
      rw [← ih, or_assoc]

theorem nil_mem_splitOn_of_head {cs : List Char} {sep : Char} (h : cs.head? = some sep) : [] ∈ cs.splitOn sep := by
  rcases cs with _ | ⟨c, cs⟩
  · cases h
  · obtain rfl := Option.some.inj h
    rw [List.splitOn, List.splitOnP_cons_eq_if_modifyHead, if_pos (beq_self_eq_true _)]
    exact List.mem_cons_self

theorem nil_mem_splitOn_of_getLast {cs : List Char} {sep : Char} (h : cs.getLast? = some sep) : [] ∈ cs.splitOn sep := by
  rcases List.eq_nil_or_concat' cs with rfl | ⟨init, last, rfl⟩
  · cases h
  · rw [List.getLast?_concat] at h
    obtain rfl := Option.some.inj h
    rw [List.splitOn, List.splitOnP_append_cons init [] (p := fun c => c == last) (beq_self_eq_true last)]
    exact List.mem_append_right _ (List.mem_singleton_self _)

/-! ### Device names -/

theorem splitAtChecked_append {cs before after : List Char} {mid : Nat} (h : splitAtChecked cs mid = some (before, after)) :
    cs = before ++ after := by
  induction cs generalizing mid before with
  | nil =>
    rcases mid with _ | mid
    · cases h
      rfl
    · cases h
  | cons c cs ih =>
    rcases mid with _ | mid
    · cases h
      rfl
    · unfold splitAtChecked at h
      split at h
      · rcases hrest : splitAtChecked cs (mid + 1 - c.utf8Size) with _ | ⟨before', after'⟩
        · rw [hrest] at h
          cases h
        · rw [hrest] at h
          cases h
          rw [ih hrest]
          rfl
      · cases h

/-- One-byte characters are split off one by one. -/
theorem splitAtChecked_ascii {before : List Char} (h : ∀ c ∈ before, c.utf8Size = 1) (after : List Char) :
    splitAtChecked (before ++ after) before.length = some (before, after) := by
  induction before with
  | nil => cases after <;> rfl
  | cons c before ih =>
    have hc := h c List.mem_cons_self
    show splitAtChecked (c :: (before ++ after)) (before.length + 1) = _
    unfold splitAtChecked
    rw [hc, if_pos (Nat.le_add_left _ _), Nat.succ_sub_one, ih fun d hd => h d (List.mem_cons_of_mem _ hd)]
    rfl

/-- A letter whose lower case is a one-byte letter is one itself. -/
theorem utf8Size_eq_one_of_toLower {c : Char} (h : c.toLower.utf8Size = 1) : c.utf8Size = 1 := by
  unfold Char.toLower at h
  split at h
  · rename_i hupper
    have hle : c.val ≤ 'Z'.val := hupper.2
    have hle : c.val.toNat ≤ 90 := hle
    unfold Char.utf8Size
    rw [if_pos]
    exact UInt32.le_iff_toNat_le.2 (hle.trans (by decide))
  · exact h

theorem utf8Size_of_same {given : List Char} {port : String} (hport : port ∈ ["COM", "LPT"])
    (h : SameIgnoringCase given port.toList) : given.length = 3 ∧ ∀ c ∈ given, c.utf8Size = 1 := by
  have hlower : ∀ c ∈ port.toList.map Char.toLower, c.utf8Size = 1 := by
    have hall : (port.toList.map Char.toLower).all (fun c => c.utf8Size = 1) = true := by
      simp only [List.mem_cons, List.not_mem_nil, or_false] at hport
      rcases hport with rfl | rfl <;> rfl
    exact fun c hc => of_decide_eq_true (List.all_eq_true.1 hall c hc)
  refine ⟨?_, fun c hc => utf8Size_eq_one_of_toLower (hlower _ (h ▸ List.mem_map_of_mem hc))⟩
  have hlen := congrArg List.length h
  rw [List.length_map, List.length_map] at hlen
  rw [hlen]
  simp only [List.mem_cons, List.not_mem_nil, or_false] at hport
  rcases hport with rfl | rfl <;> rfl

theorem eqIgnoreAsciiCase_iff {a b : List Char} : eqIgnoreAsciiCase a b = true ↔ SameIgnoringCase a b := beq_iff_eq

theorem isWindowsReservedComponent_iff {part : List Char} :
    isWindowsReservedComponent part = true ↔ DeviceName (part.takeWhile (· ≠ '.')) := by
  unfold isWindowsReservedComponent
  generalize part.takeWhile (· ≠ '.') = stem
  dsimp only
  constructor
  · intro h
    split at h
    · rename_i hplain
      obtain ⟨name, hname, hsame⟩ := List.any_eq_true.1 hplain
      exact .plain name hname (eqIgnoreAsciiCase_iff.1 hsame)
    · split at h
      · cases h
      · rename_i before after hsplit
        rw [Bool.and_eq_true, Bool.or_eq_true, eqIgnoreAsciiCase_iff, eqIgnoreAsciiCase_iff] at h
        obtain ⟨hport, hdigit⟩ := h
        obtain ⟨d, hd, hafter⟩ := List.any_eq_true.1 hdigit
        obtain rfl := beq_iff_eq.1 hafter
        have hsingle : ∃ digit ∈ "123456789¹²³".toList, d.toList = [digit] := by
          simp only [List.mem_cons, List.not_mem_nil, or_false] at hd
          rcases hd with rfl | rfl | rfl | rfl | rfl | rfl | rfl | rfl | rfl | rfl | rfl | rfl <;>
            exact ⟨_, by decide, rfl⟩
        obtain ⟨digit, hdigit, hsingle⟩ := hsingle
        rw [hsingle] at hsplit
        rcases hport with hport | hport
        · exact .numbered "COM" (by decide) before digit hdigit hport (splitAtChecked_append hsplit)
        · exact .numbered "LPT" (by decide) before digit hdigit hport (splitAtChecked_append hsplit)
  · rintro (⟨name, hname, hsame⟩ | ⟨port, hport, given, digit, hdigit, hsame, rfl⟩)
    · rw [if_pos (List.any_eq_true.2 ⟨name, hname, eqIgnoreAsciiCase_iff.2 hsame⟩)]
    · split
      · rfl
      · obtain ⟨hlen, hascii⟩ := utf8Size_of_same hport hsame
        have hsplit := splitAtChecked_ascii hascii [digit]
        rw [hlen] at hsplit
        rw [hsplit]
        simp only [Bool.and_eq_true, Bool.or_eq_true, eqIgnoreAsciiCase_iff]
        refine ⟨?_, ?_⟩
        · simp only [List.mem_cons, List.not_mem_nil, or_false] at hport
          rcases hport with rfl | rfl
          · exact .inl hsame
          · exact .inr hsame
        · have hdigits : ("123456789¹²³".toList.all fun d =>
              ["1", "2", "3", "4", "5", "6", "7", "8", "9", "¹", "²", "³"].any fun s => [d] == s.toList) = true := rfl
          exact List.all_eq_true.1 hdigits digit hdigit

/-! ### What the function accepts -/

theorem lt_space_iff {c : Char} : c < ' ' ↔ c.toNat < 0x20 := UInt32.lt_iff_toNat_lt

theorem badPart_eq_false {part : List Char} (hslash : '\\' ∉ part) :
    badPart part = false ↔ PathComponent (·.toNat < 0x20) part := by
  unfold badPart
  simp only [Bool.or_eq_false_iff, List.isEmpty_eq_false_iff, beq_eq_false_iff_ne]
  constructor
  · rintro ⟨⟨⟨⟨⟨⟨⟨hnonempty, hdot⟩, hdots⟩, hfirst⟩, hspace⟩, hstop⟩, hchars⟩, hdevice⟩
    refine ⟨hnonempty, ⟨hdot, hdots⟩, hfirst, ⟨hspace, hstop⟩, fun c hc => ?_, fun hname => ?_⟩
    · have hbad := List.any_eq_false.1 hchars c hc
      rw [Bool.or_eq_true, decide_eq_true_eq, lt_space_iff, List.contains_iff_mem, not_or] at hbad
      exact ⟨fun heq => hslash (heq ▸ hc), hbad⟩
    · rw [isWindowsReservedComponent_iff.2 hname] at hdevice
      cases hdevice
  · intro h
    refine ⟨⟨⟨⟨⟨⟨⟨h.nonempty, h.dots.1⟩, h.dots.2⟩, h.first⟩, h.last.1⟩, h.last.2⟩, ?_⟩, ?_⟩
    · refine List.any_eq_false.2 fun c hc => ?_
      rw [Bool.or_eq_true, decide_eq_true_eq, lt_space_iff, List.contains_iff_mem, not_or]
      exact (h.chars c hc).2
    · rw [Bool.eq_false_iff]
      exact fun hdevice => h.device (isWindowsReservedComponent_iff.1 hdevice)

/-- The function applies the rules with U+0000..U+001F for the control characters. -/
theorem canonical_iff {path : String} : Canonical path ↔ PathRules (·.toNat < 0x20) path := by
  unfold Canonical nonCanonical
  simp only [Bool.or_eq_false_iff]
  constructor
  · rintro ⟨⟨⟨⟨⟨hempty, -⟩, -⟩, hslash⟩, -⟩, hparts⟩
    refine ⟨?_, fun part hpart => ?_⟩
    · rintro rfl
      cases hempty
    · have hnot : '\\' ∉ part := fun hmem => by
        rw [List.contains_iff_mem.2 ((mem_splitOn (by decide) _).1 ⟨part, hpart, hmem⟩)] at hslash
        cases hslash
      exact (badPart_eq_false hnot).1 (Bool.eq_false_iff.2 (List.any_eq_false.1 hparts part hpart))
  · intro h
    have hnil : [] ∉ path.toList.splitOn '/' := fun hmem => (h.components [] hmem).nonempty rfl
    have hnot (c : Char) (hne : c ≠ '/') (hbad : ∀ part, PathComponent (·.toNat < 0x20) part → c ∉ part) :
        path.toList.contains c = false := by
      rw [Bool.eq_false_iff]
      intro hmem
      obtain ⟨part, hpart, hc⟩ := (mem_splitOn hne _).2 (List.contains_iff_mem.1 hmem)
      exact hbad part (h.components part hpart) hc
    refine ⟨⟨⟨⟨⟨?_, ?_⟩, ?_⟩, ?_⟩, ?_⟩, ?_⟩
    · rw [List.isEmpty_eq_false_iff]
      exact fun hempty => h.nonempty (String.toList_inj.1 hempty)
    · rw [beq_eq_false_iff_ne]
      exact fun hhead => hnil (nil_mem_splitOn_of_head hhead)
    · rw [beq_eq_false_iff_ne]
      exact fun hlast => hnil (nil_mem_splitOn_of_getLast hlast)
    · exact hnot _ (by decide) fun part hpart hc => (hpart.chars _ hc).1 rfl
    · exact hnot _ (by decide) fun part hpart hc => (hpart.chars _ hc).2.1 (by decide)
    · refine List.any_eq_false.2 fun part hpart => ?_
      rw [(badPart_eq_false fun hc => ((h.components part hpart).chars _ hc).1 rfl).2 (h.components part hpart)]
      exact Bool.false_ne_true

/-- The grammar asks for one thing more. -/
theorem pathRules_asciiControl {path : String} :
    PathRules AsciiControl path ↔ PathRules (·.toNat < 0x20) path ∧ delChar ∉ path.toList := by
  constructor
  · intro h
    refine ⟨⟨h.nonempty, fun part hpart => ?_⟩, fun hdel => ?_⟩
    · have hc := h.components part hpart
      exact ⟨hc.nonempty, hc.dots, hc.first, hc.last, fun c hmem =>
        ⟨(hc.chars c hmem).1, fun hlow => (hc.chars c hmem).2.1 (.inl hlow), (hc.chars c hmem).2.2⟩, hc.device⟩
    · obtain ⟨part, hpart, hmem⟩ := (mem_splitOn (show delChar ≠ '/' by decide) _).2 hdel
      exact ((h.components part hpart).chars _ hmem).2.1 (.inr rfl)
  · rintro ⟨h, hdel⟩
    refine ⟨h.nonempty, fun part hpart => ?_⟩
    have hc := h.components part hpart
    refine ⟨hc.nonempty, hc.dots, hc.first, hc.last, fun c hmem => ⟨(hc.chars c hmem).1, ?_, (hc.chars c hmem).2.2⟩, hc.device⟩
    rintro (hlow | heq)
    · exact (hc.chars c hmem).2.1 hlow
    · have hchar : c = delChar := Char.ext (UInt32.toNat_inj.1 heq)
      rw [hchar] at hmem
      exact hdel ((mem_splitOn (by decide) _).1 ⟨part, hpart, hmem⟩)

/-- The function and the grammar agree on a path if and only if it has no U+007F, or breaks another rule. -/
theorem path_grammar (path : String) :
    (validateCanonicalPath path = .ok () ↔ PathRules AsciiControl path) ↔
      delChar ∉ path.toList ∨ ¬ PathRules (·.toNat < 0x20) path := by
  rw [validateCanonicalPath_eq_ok, canonical_iff, pathRules_asciiControl]
  by_cases hrules : PathRules (·.toNat < 0x20) path
  · by_cases hdel : delChar ∈ path.toList
    · simp only [hrules, hdel, not_true_eq_false, and_false, or_self, iff_false]
    · simp only [hrules, hdel, not_false_eq_true, and_true, true_or]
  · simp only [hrules, false_and, not_false_eq_true, or_true]

/-- A path with U+007F that is accepted. -/
theorem path_grammar_del :
    ¬ (validateCanonicalPath "data/a\x7fb.txt" = .ok () ↔ PathRules AsciiControl "data/a\x7fb.txt") := by
  intro h
  have hrules := h.1 (by decide)
  exact (pathRules_asciiControl.1 hrules).2 (by decide)

end Hakutaku
