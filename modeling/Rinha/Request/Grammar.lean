import Rinha.Request.Router

/-! The four routes as a grammar of whole targets, and what the expressions make of a
target that is in it.

A target in the grammar is a word of its route's expression, and no word of one of the
later expressions is in it, so its index is selected. Its id is read when its letters up to
the number are small ones. -/
namespace Rinha.Request
open Library

/-! ### The grammar -/

/-- A letter as a small one, any other byte as it is. -/
def lower (b : UInt8) : UInt8 := if 65 ≤ b && b ≤ 90 then b + 32 else b

/-- The digits and the number they write, which is cut at `UINT64_MAX`. -/
structure Writes (text : List UInt8) (n : Nat) : Prop where
  nonempty : text ≠ []
  digits : ∀ b ∈ text, isdigit b = true
  id : n = min (Library.number text) uint64Max

/-- The target is one of a route's; the last two have no id. -/
inductive Route (target : List UInt8) : Uri → Nat → Prop where
  | transacao (digits : List UInt8) (id : Nat) (hid : Writes digits id)
      (htarget : target.map lower = bytes "/clientes/" ++ digits ++ bytes "/transacoes") :
      Route target .transacao id
  | extrato (digits : List UInt8) (id : Nat) (hid : Writes digits id)
      (htarget : target.map lower = bytes "/clientes/" ++ digits ++ bytes "/extrato") :
      Route target .extrato id
  | exit (id : Nat) (htarget : target.map lower = bytes "/exit") : Route target .exit id
  | ping (id : Nat) (htarget : target.map lower = bytes "/ping") : Route target .ping id

/-- The method token is exactly the method's. -/
def Named (method : List UInt8) : Method → Prop
  | .get => method = bytes "GET"
  | .post => method = bytes "POST"

theorem Named.mapMethod {method : List UInt8} {m : Method} (h : Named method m) :
    mapMethod method = some m := by
  cases m with
  | get => rw [show method = _ from h]; decide
  | post => rw [show method = _ from h]; decide

/-! ### Words of the expressions -/

theorem mem_icase {b c : UInt8} (hc : ¬ (65 ≤ c ∧ c ≤ 90)) : b ∈ icase c ↔ lower b = c := by
  unfold icase lower
  grind

theorem lower_digit {b : UInt8} (h : isdigit (lower b) = true) : lower b = b := by
  unfold isdigit lower at *
  grind

theorem lower_of_digit {b : UInt8} (h : isdigit b = true) : lower b = b := by
  unfold isdigit at h
  unfold lower
  grind

theorem map_lower_digits {d digits : List UInt8} (hd : ∀ b ∈ digits, isdigit b = true) :
    d.map lower = digits ↔ d = digits := by
  constructor
  · rintro rfl
    refine (List.map_id d).symm.trans (List.map_congr_left fun b hb => ?_)
    exact (lower_digit (hd _ (List.mem_map_of_mem hb))).symm
  · rintro rfl
    refine (List.map_congr_left fun b hb => ?_).trans (List.map_id d)
    exact lower_of_digit (hd b hb)

theorem mem_literal {s : String} (hs : ∀ c ∈ bytes s, ¬ (65 ≤ c ∧ c ≤ 90)) {w : List UInt8} :
    w ∈ (literal s).matches' ↔ w.map lower = bytes s := by
  rw [literal, mem_inOrder, List.forall₂_map_right_iff]
  revert hs
  generalize bytes s = cs
  intro hs
  induction cs generalizing w with
  | nil => rw [List.forall₂_nil_right_iff, List.map_eq_nil_iff]
  | cons c cs ih =>
    have hcs : ∀ c' ∈ cs, ¬ (65 ≤ c' ∧ c' ≤ 90) := fun c' hc' => hs c' (List.mem_cons_of_mem c hc')
    have hc := hs c (List.mem_cons_self ..)
    rw [List.map_eq_cons_iff]
    constructor
    · intro h
      cases h with
      | cons hb hrest => exact ⟨_, _, rfl, (mem_icase hc).mp hb, (ih hcs).mp hrest⟩
    · intro h
      obtain ⟨b, rest, rfl, hb, hrest⟩ := h
      exact .cons ((mem_icase hc).mpr hb) ((ih hcs).mpr hrest)

theorem mem_number {w : List UInt8} : w ∈ number.matches' ↔ w ≠ [] ∧ ∀ b ∈ w, isdigit b = true := by
  have hdigit : ∀ b, b ∈ bytes "0123456789" ↔ isdigit b = true := by
    apply forall_byte
    decide +kernel
  rw [number, mem_atLeastOnce_oneOf]
  simp only [hdigit]

/-- The words of the first two expressions. -/
theorem mem_numbered {s t : String} (hs : ∀ c ∈ bytes s, ¬ (65 ≤ c ∧ c ≤ 90))
    (ht : ∀ c ∈ bytes t, ¬ (65 ≤ c ∧ c ≤ 90)) {w : List UInt8} :
    w ∈ (literal s * (number * literal t)).matches' ↔ ∃ u d v, w = u ++ (d ++ v) ∧
      u.map lower = bytes s ∧ (d ≠ [] ∧ ∀ b ∈ d, isdigit b = true) ∧ v.map lower = bytes t := by
  show w ∈ (literal s).matches' * (number.matches' * (literal t).matches') ↔ _
  simp only [Language.mem_mul, mem_literal hs, mem_literal ht, mem_number]
  constructor
  · intro h
    obtain ⟨u, hu, _, ⟨d, hd, v, hv, rfl⟩, rfl⟩ := h
    exact ⟨u, d, v, rfl, hu, hd, hv⟩
  · intro h
    obtain ⟨u, d, v, rfl, hu, hd, hv⟩ := h
    exact ⟨u, hu, _, ⟨d, hd, v, hv, rfl⟩, rfl⟩

/-- What a word of each expression ends with. -/
def endings : List String := ["/transacoes", "/extrato", "/exit", "/ping"]

/-- The expressions are in small letters. -/
theorem clientes_small : ∀ c ∈ bytes "/clientes/", ¬ (65 ≤ c ∧ c ≤ 90) := by decide +kernel

theorem endings_small : ∀ s ∈ endings, ∀ c ∈ bytes s, ¬ (65 ≤ c ∧ c ≤ 90) := by decide +kernel

/-- Where an expression matches its ending is, in letters of either case. -/
theorem hits_ending {text : List UInt8} {k : Nat} (h : (hits text)[k]? = some true) :
    ∃ s, endings[k]? = some s ∧ bytes s <:+: text.map lower := by
  have hinfix : ∀ {r : RegularExpression UInt8} {s : String},
      (∀ w, w ∈ r.matches' → bytes s <:+ w.map lower) → occurs r text = true → bytes s <:+: text.map lower := by
    intro r s hr ho
    obtain ⟨w, hw, hin⟩ := (occurs_iff r text).mp ho
    exact (hr w hw).isInfix.trans (hin.map lower)
  have hliteral : ∀ {s : String}, (∀ c ∈ bytes s, ¬ (65 ≤ c ∧ c ≤ 90)) →
      ∀ w, w ∈ (literal s).matches' → bytes s <:+ w.map lower := by
    intro s hs w hw
    rw [(mem_literal hs).mp hw]
  have hnumbered : ∀ {t : String}, (∀ c ∈ bytes t, ¬ (65 ≤ c ∧ c ≤ 90)) →
      ∀ w, w ∈ (literal "/clientes/" * (number * literal t)).matches' → bytes t <:+ w.map lower := by
    intro t ht w hw
    obtain ⟨u, d, v, rfl, _, _, hv⟩ := (mem_numbered clientes_small ht).mp hw
    rw [List.map_append, List.map_append, hv, ← List.append_assoc]
    exact List.suffix_append _ _
  obtain ⟨hlt, hget⟩ := List.getElem?_eq_some_iff.mp h
  have hk : k < 4 := hlt
  rcases k with _ | _ | _ | _ | k
  · exact ⟨"/transacoes", rfl, hinfix (hnumbered (endings_small _ (by simp [endings]))) hget⟩
  · exact ⟨"/extrato", rfl, hinfix (hnumbered (endings_small _ (by simp [endings]))) hget⟩
  · exact ⟨"/exit", rfl, hinfix (hliteral (endings_small _ (by simp [endings]))) hget⟩
  · exact ⟨"/ping", rfl, hinfix (hliteral (endings_small _ (by simp [endings]))) hget⟩
  · exact absurd hk (by omega)

/-! ### Targets in the grammar -/

/-- The segments of a target with a number in it. -/
theorem infix_segment {x digits seg : List UInt8} (hx : 47 ∉ x) (hdigits : ∀ b ∈ digits, isdigit b = true)
    (hseg : 47 ∉ seg) (h : 47 :: x <:+: bytes "/clientes/" ++ digits ++ (47 :: seg)) :
    x <+: bytes "clientes" ∨ x <+: digits ∨ x <+: seg := by
  have hslash : 47 ∉ digits := fun hmem => absurd (hdigits 47 hmem) (by decide)
  have htext : bytes "/clientes/" ++ digits ++ (47 :: seg) =
      [] ++ 47 :: (bytes "clientes" ++ 47 :: (digits ++ 47 :: seg)) := by
    rw [List.append_assoc, show bytes "/clientes/" = 47 :: (bytes "clientes" ++ [47]) by decide]
    simp
  rw [htext] at h
  rcases infix_of_append_cons_cons List.not_mem_nil h with h | h
  · exact .inl (prefix_of_append_cons hx h)
  · rcases infix_of_append_cons_cons (by decide) h with h | h
    · exact .inr (.inl (prefix_of_append_cons hx h))
    · rcases infix_of_append_cons_cons hslash h with h | h
      · exact .inr (.inr h)
      · exact absurd (h.subset (List.mem_cons_self ..)) hseg

/-- A segment that no segment of the target begins with does not occur. -/
theorem not_infix_segment {c : UInt8} {x digits seg : List UInt8} (hc : isdigit c = false) (hx : 47 ∉ c :: x)
    (hdigits : ∀ b ∈ digits, isdigit b = true) (hseg : 47 ∉ seg) (hfirst : ¬ c :: x <+: bytes "clientes")
    (hlast : ¬ c :: x <+: seg) : ¬ 47 :: c :: x <:+: bytes "/clientes/" ++ digits ++ (47 :: seg) := by
  intro h
  rcases infix_segment hx hdigits hseg h with h | h | h
  · exact hfirst h
  · rw [hdigits c (h.subset (List.mem_cons_self ..))] at hc
    cases hc
  · exact hlast h

/-- A target with a number in it, cut where the number is. -/
theorem target_split {target digits tail : List UInt8} (hdigits : ∀ b ∈ digits, isdigit b = true)
    (h : target.map lower = bytes "/clientes/" ++ digits ++ tail) :
    ∃ u v, target = u ++ (digits ++ v) ∧ u.map lower = bytes "/clientes/" ∧ v.map lower = tail := by
  rw [List.append_assoc] at h
  obtain ⟨u, w, rfl, hu, hw⟩ := List.map_eq_append_iff.mp h
  obtain ⟨d, v, rfl, hd, hv⟩ := List.map_eq_append_iff.mp hw
  obtain rfl := (map_lower_digits hdigits).mp hd
  exact ⟨u, v, rfl, hu, hv⟩

/-- Digits up to a slash are read as the number they write. -/
theorem scanLu_digits {digits : List UInt8} {id : Nat} (hid : Writes digits id) (t : List UInt8) :
    scanLu (digits ++ 47 :: t) = some id := by
  obtain ⟨hne, hdigits, rfl⟩ := hid
  obtain ⟨d, rest, rfl⟩ := List.exists_cons_of_ne_nil hne
  have hd : isdigit d = true := hdigits d (List.mem_cons_self ..)
  have hspace : isspace d = false := by
    unfold isdigit at hd
    unfold isspace
    grind
  have hscan : scanDigits (d :: rest) = some (Library.number (d :: rest)) := by
    have hall : (d :: rest).takeWhile isdigit = d :: rest := List.takeWhile_eq_self_iff.mpr hdigits
    rw [scanDigits, hall, if_neg hne]
  rw [scanLu, List.cons_append, List.dropWhile_cons_of_neg (by rw [hspace]; decide), ← List.cons_append,
    scanSigned_stop (by decide)]
  have h43 : d ≠ 43 := by
    rintro rfl
    cases hd
  have h45 : d ≠ 45 := by
    rintro rfl
    cases hd
  unfold scanSigned
  split
  · rename_i heq
    exact absurd (List.cons.inj heq).1 h43
  · rename_i heq
    exact absurd (List.cons.inj heq).1 h45
  · rw [hscan]
    rfl

/-- The number of a target in the grammar is read when the letters before it are small. -/
theorem scanId_route {target digits seg : List UInt8} {id : Nat} (hid : Writes digits id)
    (h : target.map lower = bytes "/clientes/" ++ digits ++ (47 :: seg)) :
    scanId target = if bytes "/clientes/" <+: target then some id else none := by
  obtain ⟨u, v, rfl, hu, hv⟩ := target_split hid.digits h
  have hlen : u.length = (bytes "/clientes/").length := by rw [← hu, List.length_map]
  unfold scanId
  split
  · rename_i hpre
    obtain ⟨w, hw⟩ := hpre
    obtain ⟨rfl, _⟩ := List.append_inj hw hlen.symm
    rw [List.drop_left]
    obtain ⟨b, t, rfl, hb, _⟩ := List.map_eq_cons_iff.mp hv
    obtain rfl : b = 47 := by
      unfold lower at hb
      grind
    exact scanLu_digits hid t
  · rfl

/-- An ending in a target with a number in it is the target's own. -/
theorem ending_of_infix {s t : String} {digits seg : List UInt8} (hs : s ∈ endings)
    (hdigits : ∀ b ∈ digits, isdigit b = true) (hseg : 47 ∉ seg)
    (hlast : (bytes s).drop 1 <+: seg → s = t) (h : bytes s <:+: bytes "/clientes/" ++ digits ++ (47 :: seg)) :
    s = t := by
  refine hlast (Classical.byContradiction fun hno => ?_)
  simp only [endings, List.mem_cons, List.not_mem_nil, or_false] at hs
  rcases hs with rfl | rfl | rfl | rfl
  · exact not_infix_segment (by decide) (by decide) hdigits hseg (by decide) hno h
  · exact not_infix_segment (by decide) (by decide) hdigits hseg (by decide) hno h
  · exact not_infix_segment (by decide) (by decide) hdigits hseg (by decide) hno h
  · exact not_infix_segment (by decide) (by decide) hdigits hseg (by decide) hno h

/-- The index of an expression that occurs is selected, if no other ending is in the target. -/
theorem selects_of_ending {target w : List UInt8} {k : Nat} {r : RegularExpression UInt8} {t : String}
    (hr : res[k]? = some r) (hk : endings[k]? = some t) (hw : w ∈ r.matches') (hin : w <:+: target)
    (honly : ∀ s ∈ endings, bytes s <:+: target.map lower → s = t) : Selects (hits target) k := by
  constructor
  · rw [hits, List.getElem?_map, hr, Option.map_some, (occurs_iff r target).mpr ⟨w, hw, hin⟩]
  · intro j _ hjk hhit
    obtain ⟨s, hs, hinfix⟩ := hits_ending hhit
    obtain rfl := honly s (List.mem_of_getElem? hs) hinfix
    have hlt : j < endings.length := (List.getElem?_eq_some_iff.mp hs).1
    exact hjk ((List.getElem?_inj hlt (by decide)).mp (hs.trans hk.symm))

/-- A target with a number in it is a word of its expression. -/
theorem mem_numbered_of_target {target digits : List UInt8} {id : Nat} {t : String}
    (ht : ∀ c ∈ bytes t, ¬ (65 ≤ c ∧ c ≤ 90)) (hid : Writes digits id)
    (h : target.map lower = bytes "/clientes/" ++ digits ++ bytes t) :
    target ∈ (literal "/clientes/" * (number * literal t)).matches' := by
  obtain ⟨u, v, rfl, hu, hv⟩ := target_split hid.digits h
  exact (mem_numbered clientes_small ht).mpr ⟨u, digits, v, rfl, hu, ⟨hid.nonempty, hid.digits⟩, hv⟩

/-- The index of a target in the grammar is selected. -/
theorem Route.selects {target : List UInt8} {u : Uri} {id : Nat} (h : Route target u id) :
    ∃ k : Nat, u = Uri.ofIndex k ∧ Selects (hits target) k ∧
      (k = 2 ∨ k = 3 ∨ scanId target = if bytes "/clientes/" <+: target then some id else none) := by
  cases h with
  | transacao digits id hid htarget =>
    refine ⟨0, rfl, ?_, .inr (.inr (scanId_route hid htarget))⟩
    have hword := mem_numbered_of_target (endings_small "/transacoes" (by simp [endings])) hid htarget
    apply selects_of_ending rfl rfl hword (List.infix_refl _)
    intro s hs hinfix
    rw [htarget] at hinfix
    have hlast : ∀ s ∈ endings, (bytes s).drop 1 <+: bytes "transacoes" → s = "/transacoes" := by decide +kernel
    exact ending_of_infix hs hid.digits (by decide) (hlast s hs) hinfix
  | extrato digits id hid htarget =>
    refine ⟨1, rfl, ?_, .inr (.inr (scanId_route hid htarget))⟩
    have hword := mem_numbered_of_target (endings_small "/extrato" (by simp [endings])) hid htarget
    apply selects_of_ending rfl rfl hword (List.infix_refl _)
    intro s hs hinfix
    rw [htarget] at hinfix
    have hlast : ∀ s ∈ endings, (bytes s).drop 1 <+: bytes "extrato" → s = "/extrato" := by decide +kernel
    exact ending_of_infix hs hid.digits (by decide) (hlast s hs) hinfix
  | exit id htarget =>
    refine ⟨2, rfl, ?_, .inl rfl⟩
    have hword := (mem_literal (endings_small "/exit" (by simp [endings]))).mpr htarget
    apply selects_of_ending rfl rfl hword (List.infix_refl _)
    rw [htarget]
    decide +kernel
  | ping id htarget =>
    refine ⟨3, rfl, ?_, .inr (.inl rfl)⟩
    have hword := (mem_literal (endings_small "/ping" (by simp [endings]))).mpr htarget
    apply selects_of_ending rfl rfl hword (List.infix_refl _)
    rw [htarget]
    decide +kernel

/-! ### Texts with a route in them -/

theorem exists_index (u : Uri) : ∃ j : Nat, j < 4 ∧ u = Uri.ofIndex j := by
  cases u with
  | transacao => exact ⟨0, by decide, rfl⟩
  | extrato => exact ⟨1, by decide, rfl⟩
  | exit => exact ⟨2, by decide, rfl⟩
  | ping => exact ⟨3, by decide, rfl⟩

theorem ofIndex_inj {j k : Nat} (hj : j < 4) (hk : k < 4) (h : Uri.ofIndex j = Uri.ofIndex k) : j = k := by
  have hall : ∀ j < 4, ∀ k < 4, Uri.ofIndex (j : Nat) = Uri.ofIndex (k : Nat) → j = k := by decide
  exact hall j hj k hk h

/-- The words of an expression are the targets of its route. -/
theorem mem_res {k : Nat} (hk : k < 4) {r : RegularExpression UInt8} (hr : res[k]? = some r) {w : List UInt8} :
    w ∈ r.matches' ↔ ∃ id, Route w (Uri.ofIndex k) id := by
  have hnumbered : ∀ {t : String}, (∀ c ∈ bytes t, ¬ (65 ≤ c ∧ c ≤ 90)) →
      (w ∈ (literal "/clientes/" * (number * literal t)).matches' ↔
        ∃ digits id, Writes digits id ∧ w.map lower = bytes "/clientes/" ++ digits ++ bytes t) := by
    intro t ht
    constructor
    · intro hw
      obtain ⟨u, d, v, rfl, hu, ⟨hne, hd⟩, hv⟩ := (mem_numbered clientes_small ht).mp hw
      refine ⟨d, _, ⟨hne, hd, rfl⟩, ?_⟩
      rw [List.map_append, List.map_append, hu, (map_lower_digits hd).mpr rfl, hv, List.append_assoc]
    · intro hw
      obtain ⟨digits, id, hid, htarget⟩ := hw
      exact mem_numbered_of_target ht hid htarget
  rcases k with _ | _ | _ | _ | k
  · cases hr
    refine (hnumbered (endings_small "/transacoes" (by simp [endings]))).trans ⟨fun h => ?_, fun h => ?_⟩
    · obtain ⟨digits, id, hid, htarget⟩ := h
      exact ⟨id, .transacao digits id hid htarget⟩
    · obtain ⟨id, hroute⟩ := h
      cases hroute with
      | transacao digits _ hid htarget => exact ⟨digits, id, hid, htarget⟩
  · cases hr
    refine (hnumbered (endings_small "/extrato" (by simp [endings]))).trans ⟨fun h => ?_, fun h => ?_⟩
    · obtain ⟨digits, id, hid, htarget⟩ := h
      exact ⟨id, .extrato digits id hid htarget⟩
    · obtain ⟨id, hroute⟩ := h
      cases hroute with
      | extrato digits _ hid htarget => exact ⟨digits, id, hid, htarget⟩
  · cases hr
    refine (mem_literal (endings_small "/exit" (by simp [endings]))).trans ⟨fun h => ⟨0, .exit 0 h⟩, fun h => ?_⟩
    obtain ⟨id, hroute⟩ := h
    cases hroute with
    | exit _ htarget => exact htarget
  · cases hr
    refine (mem_literal (endings_small "/ping" (by simp [endings]))).trans ⟨fun h => ⟨0, .ping 0 h⟩, fun h => ?_⟩
    obtain ⟨id, hroute⟩ := h
    cases hroute with
    | ping _ htarget => exact htarget
  · omega

/-- A route stands somewhere in the text, in letters of either case. -/
def Contains (text : List UInt8) (u : Uri) : Prop := ∃ word id, Route word u id ∧ word <:+: text

/-- The text is taken for the route: that stands in it, and no other but the one of the
transactions does. -/
structure TakenFor (text : List UInt8) (u : Uri) : Prop where
  stands : Contains text u
  alone : ∀ v, v ≠ .transacao → v ≠ u → ¬ Contains text v

theorem Contains.mono {s t : List UInt8} {u : Uri} (h : Contains s u) (hst : s <:+: t) : Contains t u := by
  obtain ⟨word, id, hroute, hin⟩ := h
  exact ⟨word, id, hroute, hin.trans hst⟩

theorem hits_iff {text : List UInt8} {k : Nat} (hk : k < 4) :
    (hits text)[k]? = some true ↔ Contains text (Uri.ofIndex k) := by
  obtain ⟨r, hr⟩ : ∃ r, res[k]? = some r := ⟨res[k], List.getElem?_eq_getElem hk⟩
  rw [hits, List.getElem?_map, hr, Option.map_some, Option.some.injEq, occurs_iff]
  constructor
  · intro h
    obtain ⟨w, hw, hin⟩ := h
    obtain ⟨id, hroute⟩ := (mem_res hk hr).mp hw
    exact ⟨w, id, hroute, hin⟩
  · intro h
    obtain ⟨w, id, hroute, hin⟩ := h
    exact ⟨w, (mem_res hk hr).mpr ⟨id, hroute⟩, hin⟩

theorem hits_lt {text : List UInt8} {k : Nat} (h : (hits text)[k]? = some true) : k < 4 :=
  (List.getElem?_eq_some_iff.mp h).1

/-- The index that is selected is the one of the route that the text is taken for. -/
theorem selects_iff {text : List UInt8} {k : Nat} :
    Selects (hits text) k ↔ k < 4 ∧ TakenFor text (Uri.ofIndex k) := by
  constructor
  · intro h
    have hk := hits_lt h.1
    refine ⟨hk, (hits_iff hk).mp h.1, fun v hv hvk hcontains => ?_⟩
    obtain ⟨j, hj, rfl⟩ := exists_index v
    have hj0 : j ≠ 0 := fun heq => hv (by rw [heq]; rfl)
    have hjk : j ≠ k := fun heq => hvk (by rw [heq])
    exact h.2 j hj0 hjk ((hits_iff hj).mpr hcontains)
  · intro h
    obtain ⟨hk, hstands, halone⟩ := h
    refine ⟨(hits_iff hk).mpr hstands, fun j hj0 hjk hhit => ?_⟩
    have hj := hits_lt hhit
    exact halone _ (fun heq => hj0 (ofIndex_inj hj (by decide) heq)) (fun heq => hjk (ofIndex_inj hj hk heq))
      ((hits_iff hj).mp hhit)

/-- No route lies on both sides of a space. -/
theorem contains_append {s t : List UInt8} {u : Uri} :
    Contains (s ++ 32 :: t) u ↔ Contains s u ∨ Contains t u := by
  obtain ⟨k, hk, rfl⟩ := exists_index u
  have hget : ∀ text, (hits text)[k]? = some ((hits text).get ⟨k, hk⟩) :=
    fun text => List.getElem?_eq_getElem hk
  rw [← hits_iff hk, ← hits_iff hk, ← hits_iff hk, hits_append, List.getElem?_zipWith, hget s, hget t]
  simp

/-- Beside the part in front, the text names no route; but the one of the transactions
is not looked at where another stands. -/
def SameRoutes (front text : List UInt8) : Prop :=
  ∀ u, Contains text u → Contains front u ∨ u = .transacao ∧ ∃ v, Contains front v

theorem sameRoutes_of_hits {front text : List UInt8} (h : hits front = hits text) : SameRoutes front text := by
  intro u hu
  obtain ⟨k, hk, rfl⟩ := exists_index u
  rw [← hits_iff hk, ← h, hits_iff hk] at hu
  exact .inl hu

theorem SameRoutes.takenFor {front text : List UInt8} (h : SameRoutes front text) (hfront : front <:+: text)
    (u : Uri) : TakenFor text u ↔ TakenFor front u := by
  constructor
  · intro htaken
    refine ⟨?_, fun v hv hvu hcontains => htaken.alone v hv hvu (hcontains.mono hfront)⟩
    rcases h u htaken.stands with hstands | ⟨rfl, v, hv⟩
    · exact hstands
    · by_cases htransacao : v = .transacao
      · exact htransacao ▸ hv
      · exact absurd (hv.mono hfront) (htaken.alone v htransacao htransacao)
  · intro htaken
    refine ⟨htaken.stands.mono hfront, fun v hv hvu hcontains => ?_⟩
    rcases h v hcontains with hstands | ⟨htransacao, _⟩
    · exact htaken.alone v hv hvu hstands
    · exact hv htransacao

/-- A target that is the route is taken for it. -/
theorem Route.takenFor {target : List UInt8} {u : Uri} {id : Nat} (h : Route target u id) : TakenFor target u := by
  obtain ⟨k, rfl, hk, _⟩ := h.selects
  exact (selects_iff.mp hk).2

theorem TakenFor.unique {text : List UInt8} {u v : Uri} (hu : TakenFor text u) (hv : TakenFor text v) : u = v := by
  by_contra hne
  by_cases htransacao : u = .transacao
  · exact hu.alone v (fun heq => hne (htransacao.trans heq.symm)) (Ne.symm hne) hv.stands
  · exact hv.alone u htransacao hne hu.stands

/-! ### The method and the number -/

/-- The token begins with the method's name. -/
def BeginsWith (method : List UInt8) (m : Method) : Prop := ∃ name, Named name m ∧ name <+: method

theorem mapMethod_iff {method : List UInt8} {m : Method} : mapMethod method = some m ↔ BeginsWith method m := by
  have hname : ∀ {name : List UInt8} {m : Method}, Named name m → (∀ name', Named name' m → name' = name) →
      (BeginsWith method m ↔ name <+: method) := by
    intro name m hm honly
    constructor
    · intro h
      obtain ⟨name', hname', hprefix⟩ := h
      exact honly name' hname' ▸ hprefix
    · exact fun h => ⟨name, hm, h⟩
  have hget : BeginsWith method .get ↔ bytes "GET" <+: method := hname rfl fun _ h => h
  have hpost : BeginsWith method .post ↔ bytes "POST" <+: method := hname rfl fun _ h => h
  have hboth : bytes "GET" <+: method → ¬ bytes "POST" <+: method := by
    rintro ⟨t, rfl⟩ ⟨t', h⟩
    cases h
  unfold mapMethod
  cases m with
  | get =>
    rw [hget]
    split
    · simp [*]
    · split <;> simp [*]
  | post =>
    rw [hpost]
    split
    · simp [hboth ‹_›]
    · split <;> simp [*]

theorem scanId_eq (rest : List UInt8) : scanId (bytes "/clientes/" ++ rest) = scanLu rest := by
  rw [scanId, if_pos (List.prefix_append ..), List.drop_left]

/-- The target begins with `/clientes/` in small letters, and a numeral stands behind it. -/
def Numbered (target : List UInt8) (n : Nat) : Prop :=
  ∃ rest blanks sign digits behind, target = bytes "/clientes/" ++ rest ∧ Numeral rest blanks sign digits behind n

theorem scanId_iff {target : List UInt8} {n : Nat} : scanId target = some n ↔ Numbered target n := by
  constructor
  · intro h
    have hpre : bytes "/clientes/" <+: target := by
      by_contra hno
      rw [scanId, if_neg hno] at h
      cases h
    obtain ⟨rest, rfl⟩ := hpre
    rw [scanId_eq] at h
    obtain ⟨blanks, sign, digits, behind, hnumeral⟩ := scanLu_numeral h
    exact ⟨rest, blanks, sign, digits, behind, rfl, hnumeral⟩
  · intro h
    obtain ⟨rest, blanks, sign, digits, behind, rfl, hnumeral⟩ := h
    rw [scanId_eq, hnumeral.scanLu]

end Rinha.Request
