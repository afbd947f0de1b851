import Mathlib.Data.List.Basic
import Mathlib.Data.Nat.Notation

/-!
# Reading a stream in pieces

A reader is handed a stream piece by piece. It keeps the pieces in a buffer, takes one token
after another from its offset on, and where the buffer ends in the middle of a token it waits for
the next piece. Where the buffer is used up it may deliver what it has read, and begins anew
with an empty buffer.

Tokens are given by their texts and by what they do to an abstract state. At its own end a token
may be closed, or open, so that the reader waits to see what follows, or brittle, so that the
reader fails when the buffer ends just there.

## Main results

* `drain_spec` — what one piece more does;
* `run_spec` — a stream of tokens is delivered as it is, however it was cut, exactly when no
  piece ends behind a brittle token.
-/

namespace ChunkedReader

variable {σ α ε γ κ τ : Type*}

/-! ### Readers -/

/-- What a reader does at its offset: it goes on behind what it took, waits, or fails. -/
inductive Reading (σ ε : Type*)
  | next (s : σ)
  | wait (s : σ)
  | fail (e : ε)

/-- A reader, by what it checks when a piece arrives, and what it does at its offset in a buffer
that is not used up. -/
structure Reader (σ α ε γ : Type*) where
  check : List α → σ → Option ε
  step : List α → σ → Reading σ ε
  offset : σ → ℕ
  fresh : σ
  deliver : σ → Option (List γ)

/-- Steps until the buffer is used up, as many as the fuel allows. -/
def Reader.drain (r : Reader σ α ε γ) (buffer : List α) : ℕ → σ → Reading σ ε
  | 0, s => .wait s
  | fuel + 1, s =>
      if buffer.length ≤ r.offset s then .next s
      else
        match r.step buffer s with
        | .next s' => r.drain buffer fuel s'
        | .wait s' => .wait s'
        | .fail e => .fail e

/-- A piece has arrived at the end of the buffer. -/
def Reader.arrive (r : Reader σ α ε γ) (buffer : List α) (s : σ) : Reading σ ε :=
  match r.check buffer s with
  | some e => .fail e
  | none => r.drain buffer (buffer.length + 1) s

/-- Where every step moves on, the fuel does not matter as long as there is one more than what is
left of the buffer. -/
theorem Reader.drain_fuel {r : Reader σ α ε γ} {buffer : List α}
    (hstep : ∀ s s', r.offset s < buffer.length → r.step buffer s = .next s' →
      r.offset s < r.offset s') {n : ℕ} :
    ∀ {m : ℕ} {s : σ}, buffer.length - r.offset s < n → buffer.length - r.offset s < m →
      r.drain buffer n s = r.drain buffer m s := by
  induction n with
  | zero => exact fun hn => absurd hn (Nat.not_lt_zero _)
  | succ n ih =>
      intro m s hn hm
      obtain _ | m := m
      · exact absurd hm (Nat.not_lt_zero _)
      · rw [Reader.drain, Reader.drain]
        split
        · rfl
        · cases hread : r.step buffer s with
          | wait s' => rfl
          | fail e => rfl
          | next s' =>
              have := hstep s s' (by omega) hread
              exact ih (by omega) (by omega)

/-- One piece after another. What is delivered is listed piece by piece. -/
def Reader.run (r : Reader σ α ε γ) : σ → List α → List (List α) → Except ε (List (List γ))
  | _, _, [] => .ok []
  | s, buffer, piece :: pieces =>
      match r.arrive (buffer ++ piece) s with
      | .fail e => .error e
      | .wait s' => r.run s' (buffer ++ piece) pieces
      | .next s' =>
          match r.deliver s' with
          | none => r.run s' (buffer ++ piece) pieces
          | some out => (r.run r.fresh [] pieces).map (out :: ·)

/-! ### Tokens -/

/-- What happens at the end of a token where the buffer ends too. -/
inductive Closing
  | closed
  | opened
  | brittle
  deriving DecidableEq

/-- Tokens: their texts, what may follow them, and what they do to a state. -/
structure Tokens (κ τ α γ : Type*) where
  text : τ → List α
  closing : τ → Closing
  follow : τ → α → Prop
  next : κ → τ → κ
  emit : κ → τ → List γ
  idle : κ → Prop

namespace Tokens

variable (M : Tokens κ τ α γ)

/-- The text of tokens. -/
def texts (ts : List τ) : List α := ts.flatMap M.text

/-- The state behind tokens. -/
def after (k : κ) (ts : List τ) : κ := ts.foldl M.next k

/-- What tokens make the reader deliver. -/
def emits : κ → List τ → List γ
  | _, [] => []
  | k, t :: ts => M.emit k t ++ emits (M.next k t) ts

/-- A brittle token ends at a place. -/
def BreaksAt (ts : List τ) (n : ℕ) : Prop :=
  ∃ ts₁ t ts₂, ts = ts₁ ++ t :: ts₂ ∧ M.closing t = .brittle ∧
    (M.texts (ts₁ ++ [t])).length = n

theorem texts_cons (t : τ) (ts : List τ) : M.texts (t :: ts) = M.text t ++ M.texts ts :=
  List.flatMap_cons

theorem texts_append (ts₁ ts₂ : List τ) : M.texts (ts₁ ++ ts₂) = M.texts ts₁ ++ M.texts ts₂ :=
  List.flatMap_append

theorem after_append (k : κ) (ts₁ ts₂ : List τ) :
    M.after k (ts₁ ++ ts₂) = M.after (M.after k ts₁) ts₂ :=
  List.foldl_append

theorem after_cons (k : κ) (t : τ) (ts : List τ) : M.after k (t :: ts) = M.after (M.next k t) ts :=
  rfl

/-- What tokens in two lists make the reader deliver. -/
theorem emits_append (k : κ) (ts₁ ts₂ : List τ) :
    M.emits k (ts₁ ++ ts₂) = M.emits k ts₁ ++ M.emits (M.after k ts₁) ts₂ := by
  induction ts₁ generalizing k with
  | nil => rfl
  | cons t ts₁ ih => rw [List.cons_append, emits, emits, ih, List.append_assoc, after_cons]

/-- The first token breaks at its end, or one of the others does. -/
theorem breaksAt_cons (t : τ) (ts : List τ) (n : ℕ) :
    M.BreaksAt (t :: ts) n ↔ (M.closing t = .brittle ∧ n = (M.text t).length) ∨
      ∃ m, M.BreaksAt ts m ∧ n = (M.text t).length + m := by
  constructor
  · rintro ⟨ts₁, t', ts₂, heq, hbrittle, rfl⟩
    cases ts₁ with
    | nil =>
        obtain ⟨rfl, rfl⟩ := List.cons.inj heq
        exact .inl ⟨hbrittle, by rw [List.nil_append, texts_cons]; simp [texts]⟩
    | cons t'' ts₁ =>
        obtain ⟨rfl, rfl⟩ := List.cons.inj heq
        refine .inr ⟨_, ⟨ts₁, t', ts₂, rfl, hbrittle, rfl⟩, ?_⟩
        rw [List.cons_append, texts_cons, List.length_append]
  · rintro (⟨hbrittle, rfl⟩ | ⟨m, ⟨ts₁, t', ts₂, rfl, hbrittle, rfl⟩, rfl⟩)
    · exact ⟨[], t, ts, rfl, hbrittle, by rw [List.nil_append, texts_cons]; simp [texts]⟩
    · refine ⟨t :: ts₁, t', ts₂, rfl, hbrittle, ?_⟩
      rw [List.cons_append, texts_cons, List.length_append]

end Tokens

/-! ### Readers of tokens -/

section Reads

variable (r : Reader σ α ε γ) (M : Tokens κ τ α γ) (At : κ → List γ → σ → Prop)

/-- A reader that stands at a state reads a token: it goes on behind it where what follows is
seen, and in the middle of it waits in such a way that more text is read as if it had been there
when the reader stood in front of the token. -/
structure ReadsToken (k : κ) (t : τ) : Prop where
  ne_nil : M.text t ≠ []
  next : ∀ {s out buffer rest}, At k out s → buffer.drop (r.offset s) = M.text t ++ rest →
    (rest = [] → M.closing t = .closed) → (∀ c ∈ rest.head?, M.follow t c) →
    ∃ s', r.step buffer s = .next s' ∧ At (M.next k t) (out ++ M.emit k t) s' ∧
      r.offset s' = r.offset s + (M.text t).length
  wait : ∀ {s out buffer part rest}, At k out s → buffer.drop (r.offset s) = part → part ≠ [] →
    M.text t = part ++ rest → (rest = [] → M.closing t = .opened) →
    ∃ s' s₀, r.step buffer s = .wait s' ∧ r.offset s' ≤ buffer.length ∧
      At k out s₀ ∧ r.offset s₀ = r.offset s ∧ ∀ more, more ≠ [] →
        r.check (buffer ++ more) s' = none ∧ r.step (buffer ++ more) s' = r.step (buffer ++ more) s₀
  fail : ∀ {s out buffer}, At k out s → buffer.drop (r.offset s) = M.text t →
    M.closing t = .brittle → ∃ e, r.step buffer s = .fail e

/-- Tokens that a reader reads one after another, the last of them a closed one. -/
def Readable : κ → List τ → Prop
  | _, [] => True
  | k, t :: ts => ReadsToken r M At k t ∧ (ts = [] → M.closing t = .closed) ∧
      (∀ c ∈ (M.texts ts).head?, M.follow t c) ∧ Readable (M.next k t) ts

/-- A reader delivers where it is idle, and nowhere else, and begins anew. Where it stands at a
state it accepts a piece. -/
structure Delivers : Prop where
  check : ∀ {k out s buffer}, At k out s → r.offset s < buffer.length → r.check buffer s = none
  idle : ∀ {k out s}, At k out s → M.idle k → r.deliver s = some out
  busy : ∀ {k out s}, At k out s → ¬M.idle k → r.deliver s = none
  fresh : ∀ {k out s}, At k out s → M.idle k → At k [] r.fresh
  offset_fresh : r.offset r.fresh = 0

end Reads

/-! ### One piece -/

section Spec

variable {r : Reader σ α ε γ} {M : Tokens κ τ α γ} {At : κ → List γ → σ → Prop}

/-- A reader that stands behind some of the tokens, or in the middle of the next one and as good
as in front of it. -/
def Stands (r : Reader σ α ε γ) (At : κ → List γ → σ → Prop) (k : κ) (out : List γ)
    (buffer part : List α) (s : σ) : Prop :=
  ∃ s₀, At k out s₀ ∧ buffer.drop (r.offset s₀) = part ∧ r.offset s₀ ≤ buffer.length ∧
    (s = s₀ ∨ part ≠ [] ∧ r.offset s ≤ buffer.length ∧ ∀ more, more ≠ [] →
      r.check (buffer ++ more) s = none ∧ r.step (buffer ++ more) s = r.step (buffer ++ more) s₀)

/-- What a reader has come to in a buffer: it failed behind a brittle token, or it stands behind
some of the tokens, having used the buffer up if it goes on. -/
def Drained (r : Reader σ α ε γ) (M : Tokens κ τ α γ) (At : κ → List γ → σ → Prop) (k : κ)
    (out : List γ) (ts : List τ) (buffer part : List α) : Reading σ ε → Prop
  | .fail _ => M.BreaksAt ts part.length
  | .wait s => ¬M.BreaksAt ts part.length ∧ ∃ ts₁ t ts₂ part' rest', ts = ts₁ ++ t :: ts₂ ∧
      part = M.texts ts₁ ++ part' ∧ M.text t = part' ++ rest' ∧
      (rest' = [] → M.closing t = .opened) ∧
      Stands r At (M.after k ts₁) (out ++ M.emits k ts₁) buffer part' s ∧ part' ≠ []
  | .next s => ¬M.BreaksAt ts part.length ∧ ∃ ts₁ ts₂, ts = ts₁ ++ ts₂ ∧ part = M.texts ts₁ ∧
      At (M.after k ts₁) (out ++ M.emits k ts₁) s ∧ r.offset s = buffer.length

/-- A token was read in front of the others. -/
theorem Drained.cons {k : κ} {out : List γ} {t : τ} {ts : List τ} {buffer part : List α}
    {reading : Reading σ ε} (hne : part = [] → M.closing t = .closed)
    (h : Drained r M At (M.next k t) (out ++ M.emit k t) ts buffer part reading) :
    Drained r M At k out (t :: ts) buffer (M.text t ++ part) reading := by
  have hbreaks : M.BreaksAt (t :: ts) (M.text t ++ part).length ↔ M.BreaksAt ts part.length := by
    rw [M.breaksAt_cons, List.length_append]
    constructor
    · rintro (⟨hbrittle, hlength⟩ | ⟨m, hm, hlength⟩)
      · rw [hne (List.length_eq_zero_iff.mp (by omega))] at hbrittle
        exact Closing.noConfusion hbrittle
      · rwa [Nat.add_left_cancel hlength]
    · exact fun hm => .inr ⟨_, hm, rfl⟩
  cases reading with
  | fail e => exact hbreaks.mpr h
  | wait s =>
      obtain ⟨hnot, ts₁, t', ts₂, part', rest', rfl, rfl, htext, hopen, hstands, hpart⟩ := h
      refine ⟨fun hbreak => hnot (hbreaks.mp hbreak), t :: ts₁, t', ts₂, part', rest', rfl, ?_,
        htext, hopen, ?_, hpart⟩
      · rw [M.texts_cons, List.append_assoc]
      · rwa [M.after_cons, Tokens.emits, ← List.append_assoc]
  | next s =>
      obtain ⟨hnot, ts₁, ts₂, rfl, rfl, hat, hoffset⟩ := h
      refine ⟨fun hbreak => hnot (hbreaks.mp hbreak), t :: ts₁, ts₂, rfl, ?_, ?_, hoffset⟩
      · rw [M.texts_cons]
      · rwa [M.after_cons, Tokens.emits, ← List.append_assoc]

/-- No token ends where no text is. -/
theorem not_breaksAt_zero {k : κ} {ts : List τ} (h : Readable r M At k ts) : ¬M.BreaksAt ts 0 := by
  cases ts with
  | nil =>
      rintro ⟨ts₁, t, ts₂, heq, -, -⟩
      exact absurd heq.symm (List.append_ne_nil_of_right_ne_nil _ (List.cons_ne_nil _ _))
  | cons t ts =>
      have hpos : 0 < (M.text t).length := List.length_pos_iff.mpr h.1.ne_nil
      rw [M.breaksAt_cons]
      rintro (⟨-, hlength⟩ | ⟨m, -, hlength⟩) <;> omega

/-- Of two beginnings of a text one is longer, or they are the same. -/
theorem append_eq_cases {xs ys xs' ys' : List α} (h : xs ++ ys = xs' ++ ys') :
    (∃ zs, zs ≠ [] ∧ xs' = xs ++ zs ∧ ys = zs ++ ys') ∨ (xs' = xs ∧ ys = ys') ∨
      ∃ zs, zs ≠ [] ∧ xs = xs' ++ zs := by
  rcases List.append_eq_append_iff.mp h with ⟨zs, hxs, hys⟩ | ⟨zs, hxs, hys⟩
  · by_cases hzs : zs = []
    · subst hzs
      exact .inr (.inl ⟨by rw [hxs, List.append_nil], by rw [hys, List.nil_append]⟩)
    · exact .inl ⟨zs, hzs, hxs, hys⟩
  · by_cases hzs : zs = []
    · subst hzs
      exact .inr (.inl ⟨by rw [hxs, List.append_nil], by rw [hys, List.nil_append]⟩)
    · exact .inr (.inr ⟨zs, hzs, hxs⟩)

/-- **What is read of a buffer**: all tokens that are there, and the buffer is used up, or its end
is inside of a token or behind an open one, or just behind a brittle one and the reader fails. -/
theorem drain_spec {buffer : List α} (ts : List τ) :
    ∀ {k : κ} {out : List γ} {s : σ} {part rest : List α} {fuel : ℕ}, Readable r M At k ts →
      At k out s → buffer.drop (r.offset s) = part → r.offset s ≤ buffer.length →
      M.texts ts = part ++ rest → part.length < fuel →
      Drained r M At k out ts buffer part (r.drain buffer fuel s) := by
  induction ts with
  | nil =>
      intro k out s part rest fuel hread hat hdrop hle htexts hfuel
      obtain ⟨rfl, rfl⟩ := List.append_eq_nil_iff.mp htexts.symm
      obtain _ | fuel := fuel
      · exact absurd hfuel (Nat.not_lt_zero _)
      · have hused : buffer.length ≤ r.offset s := List.drop_eq_nil_iff.mp hdrop
        rw [Reader.drain, if_pos hused]
        refine ⟨not_breaksAt_zero hread, [], [], rfl, rfl, ?_, Nat.le_antisymm hle hused⟩
        rwa [Tokens.emits, List.append_nil]
  | cons t ts ih =>
      intro k out s part rest fuel hread hat hdrop hle htexts hfuel
      obtain ⟨htoken, hclosed, hfollow, htail⟩ := hread
      obtain _ | fuel := fuel
      · exact absurd hfuel (Nat.not_lt_zero _)
      have hpos : 0 < (M.text t).length := List.length_pos_iff.mpr htoken.ne_nil
      by_cases hnil : part = []
      · subst hnil
        have hused : buffer.length ≤ r.offset s := List.drop_eq_nil_iff.mp hdrop
        rw [Reader.drain, if_pos hused]
        refine ⟨not_breaksAt_zero ⟨htoken, hclosed, hfollow, htail⟩, [], t :: ts, rfl, rfl, ?_,
          Nat.le_antisymm hle hused⟩
        rwa [Tokens.emits, List.append_nil]
      · have hunused : ¬buffer.length ≤ r.offset s :=
          fun hused => hnil (hdrop ▸ List.drop_eq_nil_iff.mpr hused)
        rw [Reader.drain, if_neg hunused]
        rw [M.texts_cons] at htexts
        have hgo : ∀ part', part = M.text t ++ part' → M.texts ts = part' ++ rest →
            (part' = [] → M.closing t = .closed) →
            Drained r M At k out (t :: ts) buffer part
              (match r.step buffer s with
                | .next s' => r.drain buffer fuel s'
                | .wait s' => .wait s'
                | .fail e => .fail e) := by
          rintro part' rfl hrest hend
          obtain ⟨s', hstep, hat', hoffset⟩ := htoken.next hat hdrop hend (by
            intro c hc
            refine hfollow c ?_
            rw [hrest, List.head?_append, Option.mem_def.mp hc]
            rfl)
          rw [hstep]
          have hdrop' : buffer.drop (r.offset s') = part' := by
            rw [hoffset, ← List.drop_drop, hdrop, List.drop_left]
          have hle' : r.offset s' ≤ buffer.length := by
            have := congrArg List.length hdrop
            rw [List.length_drop, List.length_append] at this
            omega
          rw [List.length_append] at hfuel
          exact (ih htail hat' hdrop' hle' hrest (by omega)).cons hend
        have hwait : ∀ rest', M.text t = part ++ rest' → (rest' = [] → M.closing t = .opened) →
            Drained r M At k out (t :: ts) buffer part
              (match r.step buffer s with
                | .next s' => r.drain buffer fuel s'
                | .wait s' => .wait s'
                | .fail e => .fail e) := by
          intro rest' htext hend
          obtain ⟨s', s₀, hstep, hle', hat₀, hoffset₀, hmore⟩ :=
            htoken.wait hat hdrop hnil htext hend
          rw [← hoffset₀] at hdrop hle
          rw [hstep]
          refine ⟨?_, [], t, ts, part, rest', rfl, rfl, htext, hend,
            ⟨s₀, ?_, hdrop, hle, .inr ⟨hnil, hle', hmore⟩⟩, hnil⟩
          · rw [M.breaksAt_cons, htext, List.length_append]
            rintro (⟨hbrittle, hlength⟩ | ⟨m, hm, hlength⟩)
            · rw [hend (List.length_eq_zero_iff.mp (by omega))] at hbrittle
              exact Closing.noConfusion hbrittle
            · obtain rfl : m = 0 := by omega
              exact not_breaksAt_zero htail hm
          · rwa [Tokens.emits, List.append_nil]
        rcases append_eq_cases htexts with ⟨part', hne, hpart, hrest⟩ | ⟨hpart, hrest⟩ |
          ⟨rest', hne, htext⟩
        · exact hgo part' hpart hrest fun h => absurd h hne
        · cases hclosing : M.closing t with
          | closed =>
              exact hgo [] (by rw [hpart, List.append_nil]) (by rw [hrest, List.nil_append])
                fun _ => hclosing
          | opened => exact hwait [] (by rw [hpart, List.append_nil]) fun _ => hclosing
          | brittle =>
              obtain ⟨e, hstep⟩ := htoken.fail hat (hdrop.trans hpart) hclosing
              rw [hstep]
              exact (M.breaksAt_cons t ts _).mpr (.inl ⟨hclosing, congrArg List.length hpart⟩)
        · exact hwait rest' htext fun h => absurd h hne

/-! ### All pieces -/

/-- A piece ends at a place. -/
def EndsAt (pieces : List (List α)) (n : ℕ) : Prop :=
  ∃ ps₁ ps₂, pieces = ps₁ ++ ps₂ ∧ ps₁ ≠ [] ∧ ps₁.flatten.length = n

/-- The first piece ends at its length, and the others behind it. -/
theorem endsAt_cons (piece : List α) (pieces : List (List α)) (n : ℕ) :
    EndsAt (piece :: pieces) n ↔ n = piece.length ∨ ∃ m, EndsAt pieces m ∧ n = piece.length + m := by
  constructor
  · rintro ⟨ps₁, ps₂, heq, hne, rfl⟩
    cases ps₁ with
    | nil => exact absurd rfl hne
    | cons p ps₁ =>
        obtain ⟨rfl, rfl⟩ := List.cons.inj heq
        rw [List.flatten_cons, List.length_append]
        by_cases hps₁ : ps₁ = []
        · subst hps₁
          exact .inl rfl
        · exact .inr ⟨_, ⟨ps₁, ps₂, rfl, hps₁, rfl⟩, rfl⟩
  · rintro (rfl | ⟨m, ⟨ps₁, ps₂, rfl, hne, rfl⟩, rfl⟩)
    · exact ⟨[piece], pieces, rfl, List.cons_ne_nil _ _, by simp⟩
    · exact ⟨piece :: ps₁, ps₂, rfl, List.cons_ne_nil _ _, by simp⟩

/-- The place behind a piece that is not empty is not the first one. -/
theorem pos_of_endsAt {pieces : List (List α)} {n : ℕ} (hne : ∀ p ∈ pieces, p ≠ [])
    (h : EndsAt pieces n) : 0 < n := by
  cases pieces with
  | nil =>
      obtain ⟨ps₁, ps₂, heq, hps₁, -⟩ := h
      exact absurd (List.append_eq_nil_iff.mp heq.symm).1 hps₁
  | cons piece pieces =>
      have hpos := List.length_pos_iff.mpr (hne piece (List.mem_cons_self ..))
      rcases (endsAt_cons ..).mp h with rfl | ⟨m, -, rfl⟩ <;> omega

/-- Behind some of the tokens the others break where they break. -/
theorem breaksAt_append (ts₁ ts₂ : List τ) {m : ℕ} (hm : 0 < m) :
    M.BreaksAt (ts₁ ++ ts₂) ((M.texts ts₁).length + m) ↔ M.BreaksAt ts₂ m := by
  induction ts₁ with
  | nil =>
      rw [List.nil_append]
      change M.BreaksAt ts₂ (0 + m) ↔ _
      rw [Nat.zero_add]
  | cons t ts₁ ih =>
      rw [List.cons_append, M.breaksAt_cons, M.texts_cons, List.length_append, Nat.add_assoc, ← ih]
      constructor
      · rintro (⟨-, hlength⟩ | ⟨n, hn, hlength⟩)
        · omega
        · rwa [Nat.add_left_cancel hlength]
      · exact fun h => .inr ⟨_, h, rfl⟩

/-- Tokens behind tokens. -/
theorem Readable.append {k : κ} {ts₁ ts₂ : List τ} (h : Readable r M At k (ts₁ ++ ts₂)) :
    Readable r M At (M.after k ts₁) ts₂ := by
  induction ts₁ generalizing k with
  | nil => exact h
  | cons t ts₁ ih => exact ih h.2.2.2

/-- Tokens without a text are none. -/
theorem Readable.eq_nil {k : κ} {ts : List τ} (h : Readable r M At k ts) (htexts : M.texts ts = []) :
    ts = [] := by
  cases ts with
  | nil => rfl
  | cons t ts =>
      rw [M.texts_cons] at htexts
      exact absurd (List.append_eq_nil_iff.mp htexts).1 h.1.ne_nil

/-- One piece more, wherever the reader stands. -/
theorem Stands.arrive {k : κ} {out : List γ} {ts : List τ} {buffer part piece rest : List α} {s : σ}
    (h : Stands r At k out buffer part s) (hdeliver : Delivers r M At) (hpiece : piece ≠ [])
    (hread : Readable r M At k ts) (htexts : M.texts ts = part ++ piece ++ rest) :
    Drained r M At k out ts (buffer ++ piece) (part ++ piece) (r.arrive (buffer ++ piece) s) := by
  obtain ⟨s₀, hat, hdrop, hle, hs⟩ := h
  have hlength : 0 < piece.length := List.length_pos_iff.mpr hpiece
  have hsame : r.arrive (buffer ++ piece) s =
      r.drain (buffer ++ piece) ((buffer ++ piece).length + 1) s₀ := by
    rcases hs with rfl | ⟨-, hle', hmore⟩
    · rw [Reader.arrive, hdeliver.check hat (by rw [List.length_append]; omega)]
    · obtain ⟨hcheck, hstep⟩ := hmore piece hpiece
      rw [Reader.arrive, hcheck, Reader.drain, Reader.drain,
        if_neg (by rw [List.length_append]; omega), if_neg (by rw [List.length_append]; omega),
        hstep]
  have hdrop' : (buffer ++ piece).drop (r.offset s₀) = part ++ piece := by
    rw [List.drop_append_of_le_length hle, hdrop]
  rw [hsame]
  refine drain_spec ts hread hat hdrop' (by rw [List.length_append]; omega) htexts ?_
  rw [← hdrop', List.length_drop]
  omega

/-- A piece ends just behind a brittle token, some of the text having been there before. -/
def Broken (M : Tokens κ τ α γ) (ts : List τ) (part : List α) (pieces : List (List α)) : Prop :=
  ∃ n, EndsAt pieces n ∧ M.BreaksAt ts (part.length + n)

/-- The first piece ends just behind a brittle token. -/
theorem Broken.of_breaksAt {ts : List τ} {part piece : List α} (pieces : List (List α))
    (h : M.BreaksAt ts (part ++ piece).length) : Broken M ts part (piece :: pieces) :=
  ⟨piece.length, (endsAt_cons ..).mpr (.inl rfl), by rwa [← List.length_append]⟩

/-- The first piece does not, and the reader stands behind some of the tokens. -/
theorem broken_cons_iff {ts₁ ts₂ : List τ} {part part' piece : List α} {pieces : List (List α)}
    (hne : ∀ p ∈ pieces, p ≠ []) (hpart : part ++ piece = M.texts ts₁ ++ part')
    (hnot : ¬M.BreaksAt (ts₁ ++ ts₂) (part ++ piece).length) :
    Broken M (ts₁ ++ ts₂) part (piece :: pieces) ↔ Broken M ts₂ part' pieces := by
  have hlength := congrArg List.length hpart
  rw [List.length_append, List.length_append] at hlength
  rw [List.length_append] at hnot
  constructor
  · rintro ⟨n, hn, hbreak⟩
    rcases (endsAt_cons ..).mp hn with rfl | ⟨m, hm, rfl⟩
    · exact absurd hbreak hnot
    · refine ⟨m, hm, (breaksAt_append ts₁ ts₂ ?_).mp ?_⟩
      · have := pos_of_endsAt hne hm
        omega
      · rwa [← Nat.add_assoc, ← hlength, Nat.add_assoc]
  · rintro ⟨m, hm, hbreak⟩
    refine ⟨piece.length + m, (endsAt_cons ..).mpr (.inr ⟨m, hm, rfl⟩), ?_⟩
    rw [← Nat.add_assoc, hlength, Nat.add_assoc]
    refine (breaksAt_append ts₁ ts₂ ?_).mpr hbreak
    have := pos_of_endsAt hne hm
    omega

/-- **A stream of tokens is delivered as it is, however it was cut**, unless a piece ends just
behind a brittle token; then the reader fails. -/
theorem run_spec (hdeliver : Delivers r M At) (pieces : List (List α)) :
    ∀ {k : κ} {out : List γ} {ts : List τ} {buffer part : List α} {s : σ},
      Stands r At k out buffer part s → Readable r M At k ts → M.idle (M.after k ts) →
      part ++ pieces.flatten = M.texts ts → (∀ p ∈ pieces, p ≠ []) →
      (pieces = [] → ts = [] ∧ out = []) →
      (Broken M ts part pieces → ∃ e, r.run s buffer pieces = .error e) ∧
        (¬Broken M ts part pieces →
          ∃ outs, r.run s buffer pieces = .ok outs ∧ outs.flatten = out ++ M.emits k ts) := by
  induction pieces with
  | nil =>
      intro k out ts buffer part s hstands hread hidle htexts hne hend
      obtain ⟨rfl, rfl⟩ := hend rfl
      refine ⟨?_, fun _ => ⟨[], rfl, rfl⟩⟩
      rintro ⟨n, hn, -⟩
      obtain ⟨ps₁, ps₂, heq, hps₁, -⟩ := hn
      exact absurd (List.append_eq_nil_iff.mp heq.symm).1 hps₁
  | cons piece pieces ih =>
      intro k out ts buffer part s hstands hread hidle htexts hne hend
      have hpiece : piece ≠ [] := hne piece (List.mem_cons_self ..)
      have hpieces : ∀ p ∈ pieces, p ≠ [] := fun p hp => hne p (List.mem_cons_of_mem _ hp)
      rw [List.flatten_cons, ← List.append_assoc] at htexts
      have hdrained := hstands.arrive hdeliver hpiece hread htexts.symm
      rw [Reader.run]
      revert hdrained
      cases r.arrive (buffer ++ piece) s with
      | fail e =>
          intro hbreaks
          exact ⟨fun _ => ⟨e, rfl⟩, fun hnot => absurd (.of_breaksAt pieces hbreaks) hnot⟩
      | wait s' =>
          rintro ⟨hnot, ts₁, t, ts₂, part', rest', rfl, hpart, htext, hopen, hstands', -⟩
          have hread' := hread.append
          rw [hpart, M.texts_append, List.append_assoc, List.append_cancel_left_eq] at htexts
          rw [broken_cons_iff hpieces hpart hnot, M.emits_append, ← List.append_assoc]
          refine ih hstands' hread' ?_ htexts hpieces ?_
          · rwa [M.after_append] at hidle
          · rintro rfl
            rw [List.flatten_nil, List.append_nil, M.texts_cons, htext,
              List.append_assoc] at htexts
            obtain ⟨hrest', hts₂⟩ :=
              List.append_eq_nil_iff.mp (List.self_eq_append_right.mp htexts)
            have hclosed := hread'.2.1 (hread'.2.2.2.eq_nil hts₂)
            rw [hopen hrest'] at hclosed
            exact Closing.noConfusion hclosed
      | next s' =>
          rintro ⟨hnot, ts₁, ts₂, rfl, hpart, hat', hoffset⟩
          have hpart' : part ++ piece = M.texts ts₁ ++ [] := hpart.trans (List.append_nil _).symm
          have hread' := hread.append
          rw [hpart', M.texts_append, List.append_assoc, List.append_cancel_left_eq] at htexts
          have hidle' : M.idle (M.after (M.after k ts₁) ts₂) := by
            rwa [M.after_append] at hidle
          rw [broken_cons_iff hpieces hpart' hnot, M.emits_append, ← List.append_assoc]
          by_cases hpause : M.idle (M.after k ts₁)
          · have hstands' : Stands r At (M.after k ts₁) [] [] [] r.fresh :=
              ⟨r.fresh, hdeliver.fresh hat' hpause, List.drop_nil,
                Nat.le_of_eq hdeliver.offset_fresh, .inl rfl⟩
            obtain ⟨hbroken, hwhole⟩ := ih hstands' hread' hidle' htexts hpieces (by
              rintro rfl
              exact ⟨hread'.eq_nil htexts.symm, rfl⟩)
            simp only [hdeliver.idle hat' hpause]
            refine ⟨fun h => ?_, fun h => ?_⟩
            · obtain ⟨e, he⟩ := hbroken h
              exact ⟨e, by rw [he]; rfl⟩
            · obtain ⟨outs, hrun, houts⟩ := hwhole h
              exact ⟨_ :: outs, by rw [hrun]; rfl, by rw [List.flatten_cons, houts, List.nil_append]⟩
          · have hstands' : Stands r At (M.after k ts₁) (out ++ M.emits k ts₁) (buffer ++ piece) []
                s' :=
              ⟨s', hat', List.drop_eq_nil_iff.mpr (Nat.le_of_eq hoffset.symm),
                Nat.le_of_eq hoffset, .inl rfl⟩
            simp only [hdeliver.busy hat' hpause]
            refine ih hstands' hread' hidle' htexts hpieces ?_
            rintro rfl
            rw [hread'.eq_nil htexts.symm] at hidle'
            exact absurd hidle' hpause

end Spec

end ChunkedReader
