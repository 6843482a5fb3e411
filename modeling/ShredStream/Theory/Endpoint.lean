import Mathlib.Data.List.Basic
import ShredStream.Core.Config

/-!
# Endpoint Syntax

An endpoint is a host, or a host and a port; a host that holds colons is a
bracketed literal. `normalize_endpoint` looks at the last colon: where only
digits are behind it, they are taken for the port, and where anything else
is, the whole text is taken for a host and gets the default port.

That reads every well-formed endpoint rightly, and it refuses nothing but the
empty text and a slash. So a text with a colon that is neither a host nor a
host and a port is accepted too, and becomes a URL that names another place
or none. `normalize_iff` says which texts these are.

## Main definitions

* `addressOf`: What is left of an endpoint when it is trimmed.
* `Port`, `Bracketed`, `Host`: The parts of an endpoint.
* `Normalized`: A URL made of the parts of an endpoint.
* `Misread`: A colon that separates no port from a host.

## Theorems

* `rfind_eq`: The last occurrence of a character.
* `hasPort_iff`: When the digits behind the last colon are a port.
* `normalizeEndpoint_eq_ok_iff`: What is accepted, and as what.
* `normalize_iff`: When what is accepted is an endpoint.
* `misread_accepted`: Some that are accepted and are none.
* `normalize_canonical`: Every URL is itself accepted, as it is.
-/

namespace ShredStream

/-- The endpoint without the white space around it and without one
    `http://`. -/
def addressOf (endpoint : String) : List Char :=
  (stripPrefix? "http://".toList (trim endpoint.toList)).getD (trim endpoint.toList)

/-- A decimal numeral that fits in 16 bits. -/
def Port (p : List Char) : Prop :=
  p ≠ [] ∧ (∀ c ∈ p, isAsciiDigit c = true) ∧ Nat.ofDigitChars 10 p 0 ≤ 65535

instance (p : List Char) : Decidable (Port p) :=
  decidable_of_iff (p ≠ [] ∧ p.all isAsciiDigit = true ∧ Nat.ofDigitChars 10 p 0 ≤ 65535)
    (by rw [Port, List.all_eq_true])

/-- A literal in brackets, with nothing behind the bracket that closes it. -/
def Bracketed (h : List Char) : Prop :=
  ∃ inner, h = '[' :: (inner ++ [']']) ∧ ']' ∉ inner

/-- A host name, or a literal in brackets. -/
def Host (h : List Char) : Prop :=
  h ≠ [] ∧ (':' ∉ h ∨ Bracketed h)

/-- The URL consists of a host and a port. They are those of the address, or
    the address is the host and the port is the default. -/
def Normalized (e : List Char) (url : String) : Prop :=
  ∃ h p, url.toList = "http://".toList ++ (h ++ ':' :: p) ∧ Port p ∧ Host h ∧
    (e = h ++ ':' :: p ∨ e = h ∧ p = "9991".toList)

/-- The address holds a colon and is no literal in brackets, and its last
    colon does not separate a host from a port. -/
def Misread (e : List Char) : Prop :=
  ∃ before after, e = before ++ ':' :: after ∧ ':' ∉ after ∧ ¬ Bracketed e ∧
    ¬ (Host before ∧ Port after)

/-- The URL of an address that is not refused. -/
def urlOf (e : List Char) : List Char :=
  "http://".toList ++ if hasPort e then e else e ++ ':' :: "9991".toList

/-! ### The last occurrence -/

/-- The last occurrence of a character is the one with none behind it. -/
theorem rfind_eq (c : Char) (before after : List Char) (h : c ∉ after) :
    rfind c (before ++ c :: after) = some before.length := by
  have hskip : after.reverse.findIdx? (· == c) = none := by
    rw [List.findIdx?_eq_none_iff]
    intro x hx
    rw [beq_eq_false_iff_ne]
    rintro rfl
    exact h (List.mem_reverse.mp hx)
  rw [rfind, List.reverse_append, List.reverse_cons, List.append_assoc, List.findIdx?_append, hskip,
    List.singleton_append, List.findIdx?_cons, beq_self_eq_true]
  simp only [if_true, Option.map_some, Option.none_or, List.length_reverse, List.length_append,
    List.length_cons, Option.some.injEq]
  omega

theorem rfind_eq_none (c : Char) (e : List Char) (h : c ∉ e) : rfind c e = none := by
  rw [rfind, Option.map_eq_none_iff, List.findIdx?_eq_none_iff]
  intro x hx
  rw [beq_eq_false_iff_ne]
  rintro rfl
  exact h (List.mem_reverse.mp hx)

/-- A text that holds a character splits at its last occurrence. -/
theorem exists_last (c : Char) (e : List Char) (h : c ∈ e) :
    ∃ before after, e = before ++ c :: after ∧ c ∉ after := by
  rcases List.eq_append_cons_of_mem (List.mem_reverse.mpr h) with ⟨after, before, heq, hnone⟩
  refine ⟨before.reverse, after.reverse, ?_, fun hmem => hnone (List.mem_reverse.mp hmem)⟩
  rw [← List.reverse_reverse e, heq, List.reverse_append, List.reverse_cons, List.append_assoc,
    List.singleton_append]

/-- There is one way to split at the last occurrence. -/
theorem last_unique (c : Char) (before after before' after' : List Char)
    (heq : before ++ c :: after = before' ++ c :: after') (h : c ∉ after) (h' : c ∉ after') :
    before = before' ∧ after = after' := by
  have hlen := rfind_eq c before after h
  rw [heq, rfind_eq c before' after' h', Option.some.injEq] at hlen
  rcases List.append_inj heq hlen.symm with ⟨hb, ha⟩
  exact ⟨hb, (List.cons.inj ha).2⟩

/-! ### What is taken for a port -/

theorem not_digit (c : Char) (p : List Char) (h : ∀ x ∈ p, isAsciiDigit x = true)
    (hc : isAsciiDigit c = false) : c ∉ p := by
  intro hmem
  rw [h c hmem] at hc
  cases hc

/-- What is behind the last colon is taken for a port when it is digits; then
    no bracket is behind the colon either. -/
theorem hasPort_iff (before after : List Char) (h : ':' ∉ after) :
    hasPort (before ++ ':' :: after) = true ↔
      after ≠ [] ∧ ∀ c ∈ after, isAsciiDigit c = true := by
  have hafter : (before ++ ':' :: after).drop (before.length + 1) = after := by
    rw [List.drop_append, List.drop_of_length_le (Nat.le_succ _), List.nil_append,
      Nat.add_sub_cancel_left, List.drop_succ_cons, List.drop_zero]
  have hbracket : (∀ c ∈ after, isAsciiDigit c = true) →
      ∀ j, rfind ']' (before ++ ':' :: after) = some j → j < before.length := by
    intro hdigits j hj
    by_cases hmem : ']' ∈ before
    · rcases exists_last ']' before hmem with ⟨front, back, rfl, hback⟩
      have hnone : ']' ∉ back ++ ':' :: after := by
        simp only [List.mem_append, List.mem_cons, Char.reduceEq, false_or, not_or]
        exact ⟨hback, not_digit ']' after hdigits rfl⟩
      rw [List.append_assoc, List.cons_append, rfind_eq ']' front _ hnone, Option.some.injEq] at hj
      rw [← hj, List.length_append, List.length_cons]
      omega
    · rw [rfind_eq_none] at hj
      · cases hj
      · simp only [List.mem_append, List.mem_cons, Char.reduceEq, false_or, not_or]
        exact ⟨hmem, not_digit ']' after hdigits rfl⟩
  rw [hasPort, rfind_eq ':' before after h]
  simp only [hafter, Bool.and_eq_true, List.all_eq_true, Bool.not_eq_true',
    List.isEmpty_eq_false_iff]
  constructor
  · rintro ⟨⟨hdigits, hne⟩, _⟩
    exact ⟨hne, hdigits⟩
  · rintro ⟨hne, hdigits⟩
    refine ⟨⟨hdigits, hne⟩, ?_⟩
    cases hj : rfind ']' (before ++ ':' :: after) with
    | none => rfl
    | some j => exact decide_eq_true (hbracket hdigits j hj)

theorem hasPort_of_no_colon (e : List Char) (h : ':' ∉ e) : hasPort e = false := by
  rw [hasPort, rfind_eq_none ':' e h]

/-! ### What is accepted -/

theorem eq_append_of_stripPrefix? (p s rest : List Char) (h : stripPrefix? p s = some rest) :
    s = p ++ rest := by
  induction p generalizing s with
  | nil =>
      cases h
      rfl
  | cons c p ih =>
      cases s with
      | nil => cases h
      | cons x s =>
          rw [stripPrefix?] at h
          split at h
          · next heq => rw [heq, ih s h, List.cons_append]
          · cases h

/-- Everything is accepted that is not empty and holds no slash; `https://`
    holds one. -/
theorem normalizeEndpoint_eq_ok_iff (s url : String) : normalizeEndpoint s = .ok url ↔
    addressOf s ≠ [] ∧ '/' ∉ addressOf s ∧ url = String.ofList (urlOf (addressOf s)) := by
  have hsecure : '/' ∉ addressOf s →
      (stripPrefix? "https://".toList (addressOf s)).isSome = false := by
    intro hslash
    rw [Option.isSome_eq_false_iff, Option.isNone_iff_eq_none, Option.eq_none_iff_forall_ne_some]
    intro rest hrest
    refine hslash ?_
    rw [eq_append_of_stripPrefix? _ _ rest hrest]
    exact List.mem_append_left _ (by decide)
  have hport : (":" ++ toString defaultPort).toList = ':' :: "9991".toList := rfl
  have heq : normalizeEndpoint s
      = if (addressOf s).isEmpty || (addressOf s).contains '/' ||
          (stripPrefix? "https://".toList (addressOf s)).isSome then .error (.invalidEndpoint s)
        else if hasPort (addressOf s) then .ok (String.ofList ("http://".toList ++ addressOf s))
        else .ok (String.ofList ("http://".toList ++ addressOf s
          ++ (":" ++ toString defaultPort).toList)) := rfl
  rw [heq, hport]
  generalize addressOf s = e at hsecure ⊢
  unfold urlOf
  by_cases hrefused : e = [] ∨ '/' ∈ e
  · rw [if_pos]
    · refine iff_of_false (fun h => by cases h) (fun h => ?_)
      exact hrefused.elim h.1 h.2.1
    · simpa only [Bool.or_eq_true, List.isEmpty_iff, List.contains_iff_mem] using Or.inl hrefused
  rw [not_or] at hrefused
  rw [if_neg]
  · cases hasPort e with
    | true => simp only [if_true, Except.ok.injEq, hrefused, ne_eq, not_false_eq_true, true_and,
        eq_comm]
    | false => simp only [Bool.false_eq_true, if_false, Except.ok.injEq, List.append_assoc,
        hrefused, ne_eq, not_false_eq_true, true_and, eq_comm]
  · simp only [Bool.or_eq_true, List.isEmpty_iff, List.contains_iff_mem, hrefused.1, hrefused.2,
      hsecure hrefused.2, Bool.false_eq_true, or_self, not_false_eq_true]

/-! ### When it is an endpoint -/

/-- A literal in brackets ends with its bracket, so nothing behind a colon in
    it is digits. -/
theorem bracketed_not_digits (before after : List Char)
    (h : Bracketed (before ++ ':' :: after)) :
    ¬ (after ≠ [] ∧ ∀ c ∈ after, isAsciiDigit c = true) := by
  rintro ⟨hne, hdigits⟩
  rcases h with ⟨inner, heq, _⟩
  have hlast := congrArg List.getLast? heq
  rw [← List.cons_append, List.getLast?_concat, List.getLast?_append, List.getLast?_cons,
    Option.some_or, Option.some.injEq] at hlast
  have hmem : ']' ∈ after := by
    rw [← hlast, List.getLast?_eq_some_getLast hne, Option.getD_some]
    exact List.getLast_mem hne
  exact not_digit ']' after hdigits rfl hmem

theorem port_default : Port "9991".toList := by
  decide

theorem port_no_colon (p : List Char) (h : Port p) : ':' ∉ p := not_digit ':' p h.2.1 rfl

/-- The host and the port of a URL are what is in front of its last colon and
    behind it. -/
theorem normalized_iff (e before after : List Char) (h : ':' ∉ after) :
    Normalized e (String.ofList ("http://".toList ++ (before ++ ':' :: after))) ↔
      Port after ∧ Host before ∧
        (e = before ++ ':' :: after ∨ e = before ∧ after = "9991".toList) := by
  constructor
  · rintro ⟨host, port, hurl, hport, hrest⟩
    rw [String.toList_ofList, List.append_cancel_left_eq] at hurl
    rcases last_unique ':' before after host port hurl h (port_no_colon port hport) with ⟨rfl, rfl⟩
    exact ⟨hport, hrest⟩
  · rintro ⟨hport, hrest⟩
    exact ⟨before, after, String.toList_ofList, hport, hrest⟩

/-- The URL of an address is made of its parts exactly when the address is
    not misread. -/
theorem normalized_urlOf_iff (e : List Char) (hne : e ≠ []) :
    Normalized e (String.ofList (urlOf e)) ↔ ¬ Misread e := by
  have hdefault : ':' ∉ "9991".toList := port_no_colon _ port_default
  by_cases hcolon : ':' ∈ e
  · rcases exists_last ':' e hcolon with ⟨before, after, rfl, hlast⟩
    -- Every split at the last colon is this one.
    have hmisread : Misread (before ++ ':' :: after) ↔
        ¬ Bracketed (before ++ ':' :: after) ∧ ¬ (Host before ∧ Port after) := by
      constructor
      · rintro ⟨before', after', heq, hlast', hbad⟩
        rcases last_unique ':' _ _ _ _ heq hlast hlast' with ⟨rfl, rfl⟩
        exact hbad
      · rintro hbad
        exact ⟨before, after, rfl, hlast, hbad⟩
    have hport := hasPort_iff before after hlast
    rw [hmisread]
    unfold urlOf
    by_cases hdigits : after ≠ [] ∧ ∀ c ∈ after, isAsciiDigit c = true
    · rw [if_pos (hport.mpr hdigits), normalized_iff _ before after hlast]
      have hnot : ¬ Bracketed (before ++ ':' :: after) :=
        fun h => bracketed_not_digits before after h hdigits
      simp only [true_or, hnot, not_false_eq_true, true_and, not_not, and_comm]
    · rw [if_neg (fun h => hdigits (hport.mp h)), normalized_iff _ _ _ hdefault]
      have hnot : ¬ Port after := fun h => hdigits ⟨h.1, h.2.1⟩
      simp only [port_default, true_and, Host, hne, ne_eq, not_false_eq_true, hcolon,
        not_true_eq_false, false_or, or_true, and_true, hnot, and_false, not_not]
  · -- Without a colon the whole address is the host.
    have hnot : ¬ Misread e := by
      rintro ⟨before, after, rfl, _⟩
      exact hcolon (List.mem_append_right before List.mem_cons_self)
    unfold urlOf
    rw [hasPort_of_no_colon e hcolon, if_neg Bool.false_ne_true,
      normalized_iff _ _ _ hdefault]
    exact iff_of_true ⟨port_default, ⟨hne, Or.inl hcolon⟩, Or.inr ⟨rfl, rfl⟩⟩ hnot

/-- Whatever is accepted is a host or a host and a port exactly when the
    endpoint is empty, holds a slash, or is not misread. -/
theorem normalize_iff (s : String) :
    (∀ url, normalizeEndpoint s = .ok url → Normalized (addressOf s) url) ↔
      addressOf s = [] ∨ '/' ∈ addressOf s ∨ ¬ Misread (addressOf s) := by
  simp only [normalizeEndpoint_eq_ok_iff]
  by_cases hempty : addressOf s = []
  · exact iff_of_true (fun url h => absurd hempty h.1) (Or.inl hempty)
  by_cases hslash : '/' ∈ addressOf s
  · exact iff_of_true (fun url h => absurd hslash h.2.1) (Or.inr (Or.inl hslash))
  rw [or_iff_right hempty, or_iff_right hslash, ← normalized_urlOf_iff _ hempty]
  constructor
  · intro h
    exact h _ ⟨hempty, hslash, rfl⟩
  · rintro h url ⟨_, _, rfl⟩
    exact h

theorem not_bracketed (c : Char) (rest : List Char) (h : c ≠ '[') : ¬ Bracketed (c :: rest) := by
  rintro ⟨inner, heq, _⟩
  exact h (List.cons.inj heq).1

/-- An address is misread when a colon of it has no port behind it, or a colon
    more in front. -/
theorem misread_of (c : Char) (rest before after : List Char)
    (heq : c :: rest = before ++ ':' :: after)
    (hlast : ':' ∉ after) (hc : c ≠ '[')
    (hbad : ¬ Port after ∨ before = [] ∨ ∃ b, before = c :: b ∧ ':' ∈ before) :
    Misread (c :: rest) := by
  refine ⟨before, after, heq, hlast, not_bracketed c rest hc, ?_⟩
  rintro ⟨⟨hne, hhost⟩, hport⟩
  rcases hbad with hbad | hbad | ⟨b, rfl, hcolon⟩
  · exact hbad hport
  · exact hne hbad
  · exact hhost.elim (fun hnone => hnone hcolon) (not_bracketed c b hc)

/-- The address is accepted with a URL that it does not say. -/
def AcceptedWrongly (s : String) : Prop :=
  ∃ url, normalizeEndpoint s = .ok url ∧ ¬ Normalized (addressOf s) url

/-- An address that is misread is accepted all the same, unless it holds a
    slash. -/
theorem accepted_of_misread (s : String) (hne : addressOf s ≠ []) (hslash : '/' ∉ addressOf s)
    (hbad : Misread (addressOf s)) : AcceptedWrongly s := by
  refine ⟨_, (normalizeEndpoint_eq_ok_iff s _).mpr ⟨hne, hslash, rfl⟩, ?_⟩
  rw [normalized_urlOf_iff _ hne, not_not]
  exact hbad

/-- A literal without brackets, an address without a host, and ports that are
    empty, a name, or too large. -/
theorem misread_accepted : AcceptedWrongly "::1" ∧ AcceptedWrongly ":80" ∧
    AcceptedWrongly "host:" ∧ AcceptedWrongly "host:http" ∧ AcceptedWrongly "host:99999" := by
  refine ⟨?_, ?_, ?_, ?_, ?_⟩
  · exact accepted_of_misread _ (by decide) (by decide) (misread_of ':' [':', '1'] [':'] ['1'] rfl
      (by decide) (by decide) (Or.inr (Or.inr ⟨[], rfl, by decide⟩)))
  · exact accepted_of_misread _ (by decide) (by decide) (misread_of ':' ['8', '0'] [] ['8', '0'] rfl
      (by decide) (by decide) (Or.inr (Or.inl rfl)))
  · exact accepted_of_misread _ (by decide) (by decide) (misread_of 'h' _ "host".toList [] rfl
      (by decide) (by decide) (Or.inl (by decide)))
  · exact accepted_of_misread _ (by decide) (by decide) (misread_of 'h' _ "host".toList
      "http".toList rfl (by decide) (by decide) (Or.inl (by decide)))
  · exact accepted_of_misread _ (by decide) (by decide) (misread_of 'h' _ "host".toList
      "99999".toList rfl (by decide) (by decide) (Or.inl (by decide)))

/-! ### The URL as an endpoint -/

theorem digit_not_whitespace (c : Char) (h : isAsciiDigit c = true) : isWhitespace c = false := by
  rw [isAsciiDigit, Bool.and_eq_true, decide_eq_true_eq, decide_eq_true_eq] at h
  have hlow : 48 ≤ c.toNat := h.1
  have hhigh : c.toNat ≤ 57 := h.2
  simp only [isWhitespace, Bool.or_eq_false_iff, Bool.and_eq_false_iff, decide_eq_false_iff_not,
    beq_eq_false_iff_ne]
  omega

/-- A text with no white space at its ends is not trimmed. -/
theorem trim_eq_self (first : Char) (middle : List Char) (last : Char)
    (hfirst : isWhitespace first = false) (hlast : isWhitespace last = false) :
    trim (first :: (middle ++ [last])) = first :: (middle ++ [last]) := by
  have hdrop : (first :: (middle ++ [last])).dropWhile isWhitespace
      = first :: (middle ++ [last]) := by
    rw [List.dropWhile_cons, hfirst, if_neg Bool.false_ne_true]
  have hreverse : (first :: (middle ++ [last])).reverse = last :: (first :: middle).reverse := by
    rw [← List.cons_append, List.reverse_append, List.reverse_singleton, List.singleton_append]
  rw [trim, hdrop, hreverse, List.dropWhile_cons, hlast, if_neg Bool.false_ne_true, ← hreverse,
    List.reverse_reverse]

theorem stripPrefix?_append (p rest : List Char) : stripPrefix? p (p ++ rest) = some rest := by
  induction p with
  | nil => rfl
  | cons c p ih => rw [List.cons_append, stripPrefix?, if_pos rfl, ih]

/-- A URL that ends with a port is not trimmed. -/
theorem trim_url (scheme before port : List Char) (h : Char) (hscheme : isWhitespace h = false)
    (hne : port ≠ []) (hdigits : ∀ c ∈ port, isAsciiDigit c = true) :
    trim (h :: scheme ++ (before ++ ':' :: port)) = h :: scheme ++ (before ++ ':' :: port) := by
  have hlast := digit_not_whitespace _ (hdigits _ (List.getLast_mem hne))
  have hshape : h :: scheme ++ (before ++ ':' :: port)
      = h :: ((scheme ++ (before ++ ':' :: port.dropLast)) ++ [port.getLast hne]) := by
    conv_lhs => rw [← List.dropLast_append_getLast hne]
    simp only [List.append_assoc, List.cons_append]
  rw [hshape]
  exact trim_eq_self h _ _ hscheme hlast

/-- The address of a URL that ends with a port is what is behind its
    `http://`. -/
theorem addressOf_url (before port : List Char) (hne : port ≠ [])
    (hdigits : ∀ c ∈ port, isAsciiDigit c = true) :
    addressOf (String.ofList ("http://".toList ++ (before ++ ':' :: port)))
      = before ++ ':' :: port := by
  have hscheme : "http://".toList = 'h' :: "ttp://".toList := by decide
  have htrim : trim ("http://".toList ++ (before ++ ':' :: port))
      = "http://".toList ++ (before ++ ':' :: port) := by
    rw [hscheme]
    exact trim_url "ttp://".toList before port 'h' (by decide) hne hdigits
  have hlist : (String.ofList ("http://".toList ++ (before ++ ':' :: port))).toList
      = "http://".toList ++ (before ++ ':' :: port) := String.toList_ofList
  unfold addressOf
  rw [hlist, htrim, stripPrefix?_append, Option.getD_some]

/-- The URL of an address without a slash ends with a port, and has no slash
    behind its `http://`. -/
theorem urlOf_ends (e : List Char) (hslash : '/' ∉ e) : ∃ before port,
    urlOf e = "http://".toList ++ (before ++ ':' :: port) ∧ port ≠ [] ∧
      (∀ c ∈ port, isAsciiDigit c = true) ∧ '/' ∉ before ++ ':' :: port := by
  unfold urlOf
  by_cases hp : hasPort e = true
  · rw [if_pos hp]
    have hcolon : ':' ∈ e := by
      by_contra hnone
      rw [hasPort_of_no_colon e hnone] at hp
      cases hp
    rcases exists_last ':' e hcolon with ⟨before, after, rfl, hlast⟩
    rcases (hasPort_iff before after hlast).mp hp with ⟨hafter, hdigits⟩
    exact ⟨before, after, rfl, hafter, hdigits, hslash⟩
  · rw [if_neg hp]
    refine ⟨e, "9991".toList, rfl, port_default.1, port_default.2.1, ?_⟩
    rw [List.mem_append, not_or, List.mem_cons, not_or]
    exact ⟨hslash, by decide, not_digit '/' _ port_default.2.1 rfl⟩

/-- What is accepted is accepted again: the URL, taken for an endpoint, is the
    URL of itself. -/
theorem normalize_canonical (s url : String) (h : normalizeEndpoint s = .ok url) :
    normalizeEndpoint url = .ok url := by
  rcases (normalizeEndpoint_eq_ok_iff s url).mp h with ⟨_, hslash, hurl⟩
  rcases urlOf_ends (addressOf s) hslash with ⟨before, port, hends, hport, hdigits, hnone⟩
  rw [hends] at hurl
  have haddress : addressOf url = before ++ ':' :: port := by
    rw [hurl, addressOf_url before port hport hdigits]
  have hlast : ':' ∉ port := not_digit ':' port hdigits rfl
  have hhas := (hasPort_iff before port hlast).mpr ⟨hport, hdigits⟩
  have hself : urlOf (before ++ ':' :: port) = "http://".toList ++ (before ++ ':' :: port) :=
    congrArg ("http://".toList ++ ·) (if_pos hhas)
  refine (normalizeEndpoint_eq_ok_iff url url).mpr ⟨?_, ?_, ?_⟩
  · rw [haddress]
    exact List.append_ne_nil_of_right_ne_nil _ (List.cons_ne_nil _ _)
  · rw [haddress]
    exact hnone
  · exact hurl.trans (congrArg String.ofList ((congrArg urlOf haddress).trans hself).symm)

/-- A host that is given with white space and without a port. -/
theorem spacedHost_canonical :
    normalizeEndpoint "http://host:9991" = .ok "http://host:9991" := by
  have h : normalizeEndpoint " host " = .ok "http://host:9991" := by decide
  exact normalize_canonical " host " "http://host:9991" h

end ShredStream
