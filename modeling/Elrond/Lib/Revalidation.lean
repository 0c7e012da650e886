import Mathlib.Data.List.Chain

/-!
# Revalidating a copy

A source changes over time. A client holds a copy of its content with the tag the copy came with,
and asks again with that tag: the server looks at the tag of the source and, unless it is the one of
the copy, reads the content and sends it with the tag it has looked at. Between the look and the
read the source may change, and so it may between two requests.

A copy is `Current` for a request if the source had its content at some moment of the request.
Copies are current after every request of every run just if the tags tell the contents apart in the
sense of `Tells` (`current_iff`). They do if they determine a time stamp that never goes back and
that no two contents share (`Tells.of_stamps`).
-/

set_option autoImplicit false

namespace Elrond.Lib.Revalidation

universe u v w

variable {V : Type u} {T : Type v} {C : Type w}

/-- What a client holds: a content and the tag it came with. -/
structure Copy (T : Type v) (C : Type w) where
  tag : T
  content : C

/-- The moments of a request: when the server looks at the tag, and when it would read the
content. -/
structure Exchange where
  looked : Nat
  taken : Nat
  ordered : looked ≤ taken

/-- A request begins when the one before it is over. -/
def Exchange.Before (e e' : Exchange) : Prop := e.taken ≤ e'.looked

section

variable (history : Nat → Option V) (tag : V → Option T) (content : V → C)

/-- What the server sends for a look that has found `et`, with the content read later. -/
def sent (et : T) (e : Exchange) : Option (Copy T C) :=
  (history e.taken).map fun v => ⟨et, content v⟩

/-- The source had the content at some moment of the request. -/
def Current (e : Exchange) (c : C) : Prop :=
  ∃ t v, e.looked ≤ t ∧ t ≤ e.taken ∧ history t = some v ∧ content v = c

/-- Between two moments at which the source has one tag, it has no other content than it has at the
second one. -/
def Tells : Prop :=
  ∀ t₁ t₂ t₃ v₁ v₂ v₃ et, t₁ ≤ t₂ → t₂ ≤ t₃ →
    history t₁ = some v₁ → history t₂ = some v₂ → history t₃ = some v₃ →
    tag v₁ = some et → tag v₃ = some et → content v₂ = content v₃

/-- A copy has a tag that the source has had, and a content that it has had since, until a
moment. -/
def Taken (upto : Nat) (copy : Copy T C) : Prop :=
  ∃ t₁ t₂ v₁ v₂, t₁ ≤ t₂ ∧ t₂ ≤ upto ∧ history t₁ = some v₁ ∧ history t₂ = some v₂ ∧
    tag v₁ = some copy.tag ∧ content v₂ = copy.content

variable {history tag content}

theorem Taken.mono {t t' : Nat} (hle : t ≤ t') {copy : Copy T C}
    (h : Taken history tag content t copy) : Taken history tag content t' copy := by
  obtain ⟨t₁, t₂, v₁, v₂, h₁₂, h₂, hrest⟩ := h
  exact ⟨t₁, t₂, v₁, v₂, h₁₂, Nat.le_trans h₂ hle, hrest⟩

theorem sent_eq_some {et : T} {e : Exchange} {copy : Copy T C}
    (h : sent history content et e = some copy) :
    ∃ v, history e.taken = some v ∧ copy = ⟨et, content v⟩ := by
  obtain ⟨v, hv, hcopy⟩ := Option.map_eq_some_iff.1 h
  exact ⟨v, hv, hcopy.symm⟩

/-- Tags tell the contents apart if they determine a time stamp that never decreases and that no two
contents share. -/
theorem Tells.of_stamps (stamp : V → Nat)
    (hmono : ∀ t t' v v', t ≤ t' → history t = some v → history t' = some v' → stamp v ≤ stamp v')
    (htag : ∀ v v' et, tag v = some et → tag v' = some et → stamp v = stamp v')
    (hcontent : ∀ t t' v v', history t = some v → history t' = some v' → stamp v = stamp v' →
      content v = content v') : Tells history tag content := by
  intro t₁ t₂ t₃ v₁ v₂ v₃ et h₁₂ h₂₃ hv₁ hv₂ hv₃ htag₁ htag₃
  have hle₁ : stamp v₁ ≤ stamp v₂ := hmono t₁ t₂ v₁ v₂ h₁₂ hv₁ hv₂
  have hle₂ : stamp v₂ ≤ stamp v₃ := hmono t₂ t₃ v₂ v₃ h₂₃ hv₂ hv₃
  have hends : stamp v₁ = stamp v₃ := htag v₁ v₃ et htag₁ htag₃
  exact hcontent t₂ t₃ v₂ v₃ hv₂ hv₃ (by omega)

end

/-! ## Runs -/

section

variable [DecidableEq T] (history : Nat → Option V) (tag : V → Option T) (content : V → C)

/-- What the client holds after a request in which the look has found a tag: its copy if that has
the tag, and else what is sent. -/
def renewed (held : Option (Copy T C)) (e : Exchange) (et : T) : Option (Copy T C) :=
  match held with
  | some copy => if copy.tag = et then some copy else sent history content et e
  | none => sent history content et e

/-- What the client holds after a request. A source that is not there or has no tag leaves it with
nothing, and so does a source that is gone when it is read. -/
def exchange (held : Option (Copy T C)) (e : Exchange) : Option (Copy T C) :=
  ((history e.looked).bind tag).bind (renewed history content held e)

/-- What a client that starts with nothing holds after some requests. -/
def heldAfter (es : List Exchange) : Option (Copy T C) :=
  es.foldl (exchange history tag content) none

variable {history tag content}

/-- After a request the client holds what it held, with the tag the source has, or what it was
sent. -/
theorem exchange_eq_some {held : Option (Copy T C)} {e : Exchange} {copy : Copy T C}
    (h : exchange history tag content held e = some copy) :
    ∃ v, history e.looked = some v ∧ tag v = some copy.tag ∧
      (held = some copy ∨ ∃ v', history e.taken = some v' ∧ content v' = copy.content) := by
  obtain ⟨et, het, h⟩ := Option.bind_eq_some_iff.1 h
  obtain ⟨v, hv, htag⟩ := Option.bind_eq_some_iff.1 het
  refine ⟨v, hv, ?_⟩
  cases held with
  | none =>
      obtain ⟨v', hv', rfl⟩ := sent_eq_some h
      exact ⟨htag, Or.inr ⟨v', hv', rfl⟩⟩
  | some before =>
      rw [renewed] at h
      split at h
      · next heq =>
        obtain rfl := Option.some.inj h
        exact ⟨by rw [htag, heq], Or.inl rfl⟩
      · obtain ⟨v', hv', rfl⟩ := sent_eq_some h
        exact ⟨htag, Or.inr ⟨v', hv', rfl⟩⟩

/-- One request keeps the client's copy one that was taken from the source. -/
theorem Taken.exchange {held : Option (Copy T C)} {upto : Nat} {e : Exchange}
    (hheld : ∀ copy, held = some copy → Taken history tag content upto copy)
    (hle : upto ≤ e.looked) {copy : Copy T C}
    (h : Revalidation.exchange history tag content held e = some copy) :
    Taken history tag content e.taken copy := by
  obtain ⟨v, hv, htag, hkept | ⟨v', hv', hcontent⟩⟩ := exchange_eq_some h
  · exact (hheld copy hkept).mono (Nat.le_trans hle e.ordered)
  · exact ⟨e.looked, e.taken, v, v', e.ordered, Nat.le_refl _, hv, hv', htag, hcontent⟩

theorem heldAfter_append (es : List Exchange) (e : Exchange) :
    heldAfter history tag content (es ++ [e]) =
      exchange history tag content (heldAfter history tag content es) e := by
  rw [heldAfter, List.foldl_append]
  rfl

/-- After a run the client holds nothing, or a copy that was taken from the source until then. -/
theorem Taken.heldAfter (es : List Exchange) {e : Exchange}
    (hes : (es ++ [e]).IsChain Exchange.Before) {copy : Copy T C}
    (h : Revalidation.heldAfter history tag content es = some copy) :
    Taken history tag content e.looked copy := by
  -- over the requests from the last to the first
  induction es using List.reverseRecOn generalizing e copy with
  | nil => cases h
  | append_singleton es last ih =>
      rw [heldAfter_append] at h
      have hlast : last.Before e := by
        rw [List.append_assoc] at hes
        exact (List.isChain_cons_cons.1 hes.right_of_append).1
      have hprefix : (es ++ [last]).IsChain Exchange.Before := hes.left_of_append
      have htaken := Taken.exchange (fun c hc => ih hprefix hc) (Nat.le_refl _) h
      exact htaken.mono hlast

/-- **Revalidated copies.** After every request of every run, the copy that the client holds is what
the source was at some moment of that request, just if its tags tell its contents apart. -/
theorem current_iff :
    (∀ es e, (es ++ [e]).IsChain Exchange.Before → ∀ copy,
        heldAfter history tag content (es ++ [e]) = some copy →
        Current history content e copy.content) ↔
      Tells history tag content := by
  constructor
  · -- the first request looks and reads at the first two moments, the next one finds its tag again
    intro hall t₁ t₂ t₃ v₁ v₂ v₃ et h₁₂ h₂₃ hv₁ hv₂ hv₃ htag₁ htag₃
    have hchain : ([⟨t₁, t₂, h₁₂⟩] ++ [⟨t₃, t₃, Nat.le_refl t₃⟩] : List Exchange).IsChain
        Exchange.Before := List.isChain_pair.2 h₂₃
    have hheld : heldAfter history tag content
        ([⟨t₁, t₂, h₁₂⟩] ++ [⟨t₃, t₃, Nat.le_refl t₃⟩]) = some ⟨et, content v₂⟩ := by
      simp [heldAfter, exchange, renewed, sent, hv₁, hv₂, hv₃, htag₁, htag₃]
    obtain ⟨t, v, hge, hle, hv, hcontent⟩ := hall _ _ hchain _ hheld
    obtain rfl : t = t₃ := Nat.le_antisymm hle hge
    rw [hv₃] at hv
    obtain rfl := Option.some.inj hv
    exact hcontent.symm
  · intro htells es e hes copy h
    rw [heldAfter_append] at h
    obtain ⟨v, hv, htag, hkept | ⟨v', hv', hcontent⟩⟩ := exchange_eq_some h
    · -- the tag of the copy is found again
      obtain ⟨t₁, t₂, v₁, v₂, h₁₂, h₂, hv₁, hv₂, htag₁, hcontent⟩ := Taken.heldAfter es hes hkept
      have hsame := htells t₁ t₂ e.looked v₁ v₂ v copy.tag h₁₂ h₂ hv₁ hv₂ hv htag₁ htag
      exact ⟨e.looked, v, Nat.le_refl _, e.ordered, hv, hsame.symm.trans hcontent⟩
    · exact ⟨e.taken, v', e.ordered, Nat.le_refl _, hv', hcontent⟩

end

end Elrond.Lib.Revalidation
