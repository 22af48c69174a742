import Mathlib.Algebra.Order.Group.Multiset
import Mathlib.Tactic.Abel
import LuaChunk.Proofs.Action.Floats
import LuaChunk.Proofs.Parallel.Run

/-!
The objects that a compilation stores. Each one is recorded once when it is stored: the chunk's name
and the constant texts of each function, the names of its local variables and upvalues, and the
functions nested in it. So at any time, in a compilation that fails too, the record is what the
functions hold that are finished or under construction.

Functions are numbered as they are started, each before those nested in it.
-/

set_option autoImplicit false

namespace LuaChunk

namespace Compile

def textStores (owner : Nat) (texts : List Bytes) : Multiset Store :=
  Multiset.ofList (texts.map (.text owner))

theorem textStores_perm {texts texts' more : List Bytes} (owner : Nat)
    (h : texts'.Perm (texts ++ more)) :
    textStores owner texts' = textStores owner texts + textStores owner more := by
  unfold textStores
  rw [Multiset.coe_add, ← List.map_append]
  exact Multiset.coe_eq_coe.2 (h.map _)

mutual

/-- The objects in a function and in all functions nested in it, if it has this number. -/
def held (id : Nat) : Prototype → Multiset Store
  | { source, constants, nested, upvalues, locals, .. } =>
    .source id source ::ₘ (textStores id (textsOf constants (locals.map (·.name)) upvalues) +
      heldAll id (id + 1) nested)

/-- The same for functions nested in one, with the first number that is free. -/
def heldAll (owner next : Nat) : List Prototype → Multiset Store
  | [] => 0
  | p :: ps => .nested owner next ::ₘ (held next p + heldAll owner (next + p.walk.length) ps)

end

theorem heldAll_concat (owner next : Nat) (ps : List Prototype) (p : Prototype) :
    heldAll owner next (ps ++ [p])
    = heldAll owner next ps + (.nested owner (next + (Prototype.walkAll ps).length)
      ::ₘ held (next + (Prototype.walkAll ps).length) p) := by
  induction ps generalizing next with
  | nil => simp [heldAll, Prototype.walkAll]
  | cons q ps ih =>
    rw [List.cons_append, heldAll, heldAll, ih, Prototype.walkAll, List.length_append,
      ← Nat.add_assoc]
    simp only [Multiset.cons_add, Multiset.add_assoc]

theorem length_walk (p : Prototype) : p.walk.length = 1 + (Prototype.walkAll p.nested).length := by
  cases p
  rw [Prototype.walk, List.length_cons, Nat.add_comm]

namespace Builder

/-- The objects in a function under construction. -/
def held (f : Builder) (source : Bytes) : Multiset Store :=
  .source f.id source ::ₘ (textStores f.id f.texts + heldAll f.id (f.id + 1) f.nested.toList)

/-- The number after the function and all those nested in it. -/
def limit (f : Builder) : Nat := f.id + 1 + (Prototype.walkAll f.nested.toList).length

def outline (f : Builder) : Nat × Array Prototype := (f.id, f.nested)

theorem held_prototype (f : Builder) (source : Bytes) :
    Compile.held f.id (f.prototype source) = f.held source := by
  unfold prototype Compile.held held texts
  rw [Array.map_map]
  rfl

theorem held_start (id line firstVar firstLabel : Nat) (source : Bytes) :
    (start id line firstVar firstLabel).held source = {.source id source} := by
  have htexts : (start id line firstVar firstLabel).texts = [] := by simp [texts, textsOf, start]
  have hnested : (start id line firstVar firstLabel).nested.toList = [] := rfl
  unfold held
  rw [htexts, hnested, heldAll]
  rfl

theorem held_attach (f : Builder) (p : Prototype) (source : Bytes) :
    ({ f with nested := f.nested.push p } : Builder).held source
    = f.held source + (.nested f.id f.limit ::ₘ Compile.held f.limit p) := by
  unfold held
  rw [Array.toList_push, heldAll_concat]
  simp only [limit, texts, Multiset.cons_add, Multiset.add_assoc]

end Builder

def heldAround (source : Bytes) (child : Nat) : List Builder → Multiset Store
  | [] => 0
  | b :: rest => .nested b.id child ::ₘ (b.held source + heldAround source b.id rest)

/-- The objects in all functions under construction. -/
def State.held (s : State) : Multiset Store :=
  s.fn.held s.lexer.source + heldAround s.lexer.source s.fn.id s.outer

end Compile

namespace Lexer

def settings (l : Lexer) : Bytes × Option Bytes × (Bytes → Nat) := (l.source, l.failure, l.numberOf)

theorem settings_scan (l : Lexer) : (after scan l).settings = l.settings := by
  have hpassed (x : Scan.Lexeme) (c : Scan.Cursor) : (l.passed x c).settings = l.settings := rfl
  unfold after
  rw [scan_result]
  cases Reader.read l.input l.line with
  | error f => rfl
  | ok r =>
    dsimp only
    cases l.unread? r.2.rest with
    | some e => rfl
    | none => exact hpassed r.1 r.2

theorem settings_bind {α β : Type} {m : M α} {f : α → M β} {l : Lexer}
    (h : (after m l).settings = l.settings)
    (hf : ∀ a l', (after (f a) l').settings = l'.settings) : (after (m >>= f) l).settings =
    l.settings := by
  unfold after at h ⊢
  cases hm : m l with
  | error e l' =>
    rw [hm] at h
    rw [bind_error hm]
    exact h
  | ok a l' =>
    rw [hm] at h
    rw [bind_eq hm]
    exact (hf a l').trans h

theorem settings_next (l : Lexer) : (after next l).settings = l.settings := by
  have hfetch (ahead : Option Token) (l : Lexer) :
      (after (fetch ahead) l).settings = l.settings := by
    cases ahead with
    | some t => rfl
    | none => exact settings_bind (settings_scan l) fun _ _ => rfl
  unfold after
  rw [next_fetch]
  exact hfetch l.ahead _

theorem settings_lookahead (l : Lexer) : (after lookahead l).settings = l.settings := by
  have hpeek (ahead : Option Token) : (after (peek ahead) l).settings = l.settings := by
    cases ahead with
    | some t => rfl
    | none => exact settings_bind (settings_scan l) fun _ _ => rfl
  unfold after
  rw [lookahead_peek]
  exact hpeek l.ahead

end Lexer

namespace Compile

def Accounts (s t : State) : Prop :=
  Multiset.ofList t.stores.toList + s.held = Multiset.ofList s.stores.toList + t.held

theorem Accounts.of_eq {s t : State} (hstores : t.stores = s.stores) (hheld : t.held = s.held) :
    Accounts s t := by
  unfold Accounts
  rw [hstores, hheld]

theorem Accounts.refl (s : State) : Accounts s s := .of_eq rfl rfl

theorem Accounts.trans {s t u : State} (h : Accounts s t) (h' : Accounts t u) : Accounts s u := by
  unfold Accounts at h h' ⊢
  refine add_right_cancel (b := t.held) ?_
  calc Multiset.ofList u.stores.toList + s.held + t.held
      = (Multiset.ofList u.stores.toList + t.held) + s.held := by abel
    _ = (Multiset.ofList t.stores.toList + s.held) + u.held := by rw [h']; abel
    _ = Multiset.ofList s.stores.toList + u.held + t.held := by rw [h]; abel

/-- What an action does to the functions under construction. Without nested functions it starts
none. -/
structure Enlarges (levels : Option Nat) (s t : State) : Prop where
  id : t.fn.id = s.fn.id
  outer : t.outer.map Builder.outline = s.outer.map Builder.outline
  source : t.lexer.source = s.lexer.source
  flat : levels = none → t.nextId = s.nextId ∧ t.fn.nested = s.fn.nested
  numbered : levels.isSome → t.nextId = t.fn.limit
  accounts : Accounts s t

theorem Enlarges.trans {levels : Option Nat} {s t u : State} (h : Enlarges levels s t)
    (h' : Enlarges levels t u) : Enlarges levels s u where
  id := h'.id.trans h.id
  outer := h'.outer.trans h.outer
  source := h'.source.trans h.source
  flat hn := ⟨(h'.flat hn).1.trans (h.flat hn).1, (h'.flat hn).2.trans (h.flat hn).2⟩
  numbered := h'.numbered
  accounts := h.accounts.trans h'.accounts

/-- What holds even where an action fails, maybe in a nested function. -/
structure Reaches (levels : Option Nat) (s t : State) : Prop where
  source : t.lexer.source = s.lexer.source
  id : levels = none → t.fn.id = s.fn.id
  accounts : Accounts s t

def Grown {α : Type} (levels : Option Nat) (s : State) : EStateM.Result Failure State α → Prop
  | .ok _ t => Enlarges levels s t
  | .error _ t => Reaches levels s t

theorem Touches.source {s t : State} (h : Touches s t) : t.lexer.source = s.lexer.source := by
  have hcore := h.lexer
  simp only [Lexer.core, Prod.mk.injEq] at hcore
  exact hcore.2.2.2.2.2.1

theorem Touches.accounts {s t : State} (h : Touches s t) : Accounts s t := by
  obtain ⟨texts, hstores, htexts⟩ := h.texts
  have hfn : t.fn.held t.lexer.source = s.fn.held s.lexer.source + textStores s.fn.id texts := by
    unfold Builder.held
    rw [h.id, h.nested, h.source, textStores_perm _ htexts]
    simp only [Multiset.cons_add]
    congr 1
    abel
  unfold Accounts State.held
  rw [hfn, h.outer, h.source, h.id, hstores, ← Multiset.coe_add]
  show _ + textStores s.fn.id texts + _ = _
  abel

theorem Enlarges.of_touches {levels : Option Nat} {s t : State} (h : Touches s t)
    (hn : levels.isSome → s.nextId = s.fn.limit) : Enlarges levels s t where
  id := h.id
  outer := by rw [h.outer]
  source := h.source
  flat _ := ⟨h.nextId, h.nested⟩
  numbered hnests := by
    rw [h.nextId, hn hnests]
    unfold Builder.limit
    rw [h.id, h.nested]
  accounts := h.accounts

theorem grown_onLexer {α : Type} {levels : Option Nat} {act : Lexer.M α} {s : State}
    (hn : levels.isSome → s.nextId = s.fn.limit)
    (h : (Lexer.after act s.lexer).settings = s.lexer.settings) : Grown levels s
    (onLexer act s) := by
  have haccounts (l : Lexer) (hl : l.source = s.lexer.source) : Accounts s { s with lexer := l } :=
    .of_eq rfl (by simp only [State.held, hl])
  have hsource : (Lexer.after act s.lexer).source = s.lexer.source := (Prod.mk.inj h).1
  clear h
  unfold onLexer Lexer.after at *
  dsimp only
  cases hl : act s.lexer with
  | ok a l =>
    rw [hl] at hsource
    exact ⟨rfl, rfl, hsource, fun _ => ⟨rfl, rfl⟩, hn, haccounts l hsource⟩
  | error e l =>
    rw [hl] at hsource
    exact ⟨hsource, fun _ => rfl, haccounts l hsource⟩

theorem Grown.bind {α β : Type} {levels : Option Nat} {m : M α} {f : α → M β} {s : State}
    (h : Grown levels s (m s))
    (hf : ∀ a t, m s = .ok a t → Enlarges levels s t → Grown levels t (f a t)) : Grown levels s
    ((m >>= f) s) := by
  change Grown levels s (EStateM.bind m f s)
  unfold EStateM.bind
  cases hm : m s with
  | error e t =>
    rw [hm] at h
    exact h
  | ok a t =>
    rw [hm] at h
    have ht : Enlarges levels s t := h
    have hf := hf a t hm ht
    dsimp only
    cases hr : f a t with
    | ok b u =>
      rw [hr] at hf
      exact ht.trans hf
    | error e u =>
      rw [hr] at hf
      exact ⟨hf.source.trans ht.source, fun hn => (hf.id hn).trans ht.id,
        ht.accounts.trans hf.accounts⟩

theorem State.held_enclosed {s : State} {b : Builder} {rest : List Builder}
    (ho : s.outer = b :: rest) : s.held
    = s.fn.held s.lexer.source +
      (.nested b.id s.fn.id ::ₘ State.held { s with fn := b, outer := rest }) := by
  unfold held
  rw [ho]
  rfl

theorem Grown.enclosing {α : Type} {levels : Option Nat} {m : M α} {s : State} {b : Builder}
    {rest : List Builder}
    (ho : s.outer = b :: rest) (hn : levels.isSome → s.nextId = s.fn.limit)
    (h : Grown none { s with fn := b, outer := rest } (m { s with fn := b, outer := rest })) : Grown
    levels s (inEnclosing m s) := by
  have haccounts {t : State} (ht : Accounts { s with fn := b, outer := rest } t)
      (hid : t.fn.id = b.id)
      (hsource : t.lexer.source = s.lexer.source) : Accounts s (t.backIn s.fn) := by
    have hback : (t.backIn s.fn).held = s.fn.held s.lexer.source +
        (.nested b.id s.fn.id ::ₘ t.held) := by
      rw [← hid, ← hsource]
      rfl
    unfold Accounts at ht ⊢
    rw [State.held_enclosed ho, hback, Multiset.add_cons, Multiset.add_cons, Multiset.add_cons,
      Multiset.add_cons]
    congr 1
    calc _ = (Multiset.ofList t.stores.toList + State.held { s with fn := b, outer := rest }) +
      s.fn.held s.lexer.source := by
          show Multiset.ofList t.stores.toList + _ = _
          abel
      _ = _ := by
          rw [ht]
          show Multiset.ofList s.stores.toList + _ + _ = _
          abel
  rw [inEnclosing_cons ho]
  cases hm : m { s with fn := b, outer := rest } with
  | ok a t =>
    rw [hm] at h
    obtain ⟨hid, houter, hsource, hflat, -, ht⟩ := h
    obtain ⟨hnext, hnested⟩ := hflat rfl
    refine ⟨rfl, ?_, hsource, fun _ => ⟨hnext, rfl⟩, fun hnests => hnext.trans (hn hnests),
      haccounts ht hid hsource⟩
    show Builder.outline t.fn :: t.outer.map Builder.outline = _
    rw [ho, houter, List.map_cons, Builder.outline, hid, hnested]
    rfl
  | error e t =>
    rw [hm] at h
    exact ⟨h.source, fun _ => rfl, haccounts h.accounts (h.id rfl) h.source⟩

theorem accounts_nest (s : State) (line : Nat) : Accounts s (s.nest line) := by
  have hheld : (s.nest line).held = {.source s.nextId s.lexer.source} +
      (.nested s.fn.id s.nextId ::ₘ s.held) := by
    rw [← Builder.held_start s.nextId line s.vars.size s.labels.size]
    rfl
  have hstores : Multiset.ofList (s.nest line).stores.toList
      = Multiset.ofList s.stores.toList +
        ({.nested s.fn.id s.nextId} + {.source s.nextId s.lexer.source}) := by
    show Multiset.ofList ((s.stores.push _).push _).toList = _
    rw [Array.toList_push, Array.toList_push, ← Multiset.coe_add, ← Multiset.coe_add,
      Multiset.add_assoc]
    rfl
  unfold Accounts
  rw [hheld, hstores, ← Multiset.singleton_add]
  abel

theorem accounts_attach {s : State} {b : Builder} {rest : List Builder} (ho : s.outer = b :: rest)
    (hid : s.fn.id = b.limit) :
    Accounts s { s with
      fn := { b with nested := b.nested.push (s.fn.prototype s.lexer.source) },
      outer := rest } := by
  refine .of_eq rfl ?_
  rw [State.held_enclosed ho]
  show Builder.held { b with nested := _ } s.lexer.source + heldAround s.lexer.source b.id rest
    = _ + (_ ::ₘ (b.held s.lexer.source + heldAround s.lexer.source b.id rest))
  rw [Builder.held_attach, ← hid, Builder.held_prototype, ← Multiset.singleton_add,
    ← Multiset.singleton_add]
  abel

theorem Builder.limit_attach (f : Builder) (p : Prototype) :
    ({ f with nested := f.nested.push p } : Builder).limit = f.limit + p.walk.length := by
  have hwalk (ps : List Prototype) :
      (Prototype.walkAll (ps ++ [p])).length = (Prototype.walkAll ps).length + p.walk.length := by
    induction ps with
    | nil => simp [Prototype.walkAll]
    | cons q ps ih =>
      rw [List.cons_append, Prototype.walkAll, Prototype.walkAll, List.length_append,
        List.length_append, ih, Nat.add_assoc]
  unfold limit
  rw [Array.toList_push, hwalk, Nat.add_assoc, Nat.add_assoc, Nat.add_assoc]

theorem Grown.metered {deep : Nat} {α : Type} {m : M α} {s : State}
    (h : Grown (some deep) s.deeper
      (m s.deeper)) : Grown (some (deep + 1)) s (metered m s) := by
  change Grown (some (deep + 1)) s (EStateM.bind m (fun a => leaveLevel >>= fun _ => pure a) _)
  unfold EStateM.bind
  cases hm : m s.deeper with
  | error e t =>
    rw [hm] at h
    exact ⟨h.source, nofun, h.accounts⟩
  | ok a t =>
    rw [hm] at h
    exact ⟨h.id, h.outer, h.source, nofun, h.numbered, h.accounts⟩

theorem Grown.nested {deep : Nat} {α : Type} {m : M α} {s : State} (line : Nat)
    (hn : s.nextId = s.fn.limit)
    (h : Grown (some deep) (s.nest line) (m (s.nest line))) :
    Grown (some deep) s ((do
      nest line
      let a ← m
      attach
      return a : M α) s) := by
  change Grown (some deep) s (EStateM.bind m (fun a => attach >>= fun _ => pure a) (s.nest line))
  unfold EStateM.bind
  cases hm : m (s.nest line) with
  | error e t =>
    rw [hm] at h
    exact ⟨h.source, nofun, (accounts_nest s line).trans h.accounts⟩
  | ok a t =>
    rw [hm] at h
    obtain ⟨hid, houter, hsource, -, hnumbered, ht⟩ := h
    obtain ⟨b, rest, ho, hb, hrest⟩ := List.map_eq_cons_iff.1 houter
    obtain ⟨hbid, hbnested⟩ := Prod.mk.inj hb
    have hlimit : t.fn.id = b.limit := by
      rw [hid]
      show s.nextId = _
      rw [hn]
      unfold Builder.limit
      rw [hbid, hbnested]
    dsimp only
    rw [bind_eq (attach_cons ho)]
    refine ⟨hbid, hrest, hsource, nofun, fun _ => ?_,
      (accounts_nest s line).trans (ht.trans (accounts_attach ho hlimit))⟩
    show t.nextId = _
    rw [hnumbered rfl, Builder.limit_attach, length_walk, ← hlimit]
    show t.fn.limit = _
    unfold Builder.limit
    rw [Nat.add_assoc]
    rfl

theorem Single.grown {levels : Option Nat} {α : Type} {P : α → Prop} {m : M α} (h : Single P m)
    {s : State} (hs : s.Clean)
    (hn : levels.isSome → s.nextId = s.fn.limit) : Grown levels s (m s) := by
  cases hm : m s with
  | ok a t => exact .of_touches (h.ok s a t hs hm).2.2 hn
  | error e t =>
    have hstep := (h.error s e t hs hm).1
    exact ⟨hstep.source, fun _ => hstep.id, hstep.accounts⟩

theorem Built.grown {levels : Option Nat} {α : Type} {P : α → Prop} {m : M α} (h : Built levels P m)
    {s : State} (hs : s.Clean)
    (hn : levels.isSome → s.nextId = s.fn.limit) : Grown levels s (m s) := by
  induction h generalizing s with
  | single h => exact h.grown hs hn
  | bind hm hf ihm ihf =>
    refine .bind (ihm hs hn) fun a t hr ht => ?_
    obtain ⟨ha, hclean⟩ := hm.clean hs hr
    exact ihf a ha hclean ht.numbered
  | get hf hc ih => exact ih s hs hs hn
  | next => exact grown_onLexer hn (Lexer.settings_next _)
  | lookahead => exact grown_onLexer hn (Lexer.settings_lookahead _)
  | @loop levels _ _ P Q turn b hb ht ih =>
    change Grown levels s (iterate turn s.bound b s)
    generalize s.bound = n
    induction n generalizing b s with
    | zero => exact ⟨rfl, fun _ => rfl, .refl s⟩
    | succ n ihn =>
      change Grown levels s ((turn b >>= _) s)
      refine .bind (ih b hb hs hn) fun r t hr ht' => ?_
      obtain ⟨hr', hclean⟩ := (ht b hb).clean hs hr
      cases r with
      | again b' =>
        refine .bind ((single_checkAdvance _).grown hclean ht'.numbered) fun _ u hu hu' => ?_
        obtain ⟨-, rfl⟩ := ok_of_checkAdvance hu
        exact ihn hr' hclean ht'.numbered
      | done b' => exact ⟨rfl, rfl, rfl, fun _ => ⟨rfl, rfl⟩, ht'.numbered, .refl t⟩
  | @enclosing levels _ P m h ih =>
    cases ho : s.outer with
    | nil =>
      rw [inEnclosing_nil ho]
      exact ⟨rfl, fun _ => rfl, .refl s⟩
    | cons b rest => exact .enclosing ho hn (ih (hs.leave ho) fun h => absurd h Bool.false_ne_true)
  | @metered _ _ _ m h ih => exact .metered (ih (s := s.deeper) (hs.atLevel _ _) fun _ => hn rfl)
  | @nested _ _ P m line h ih =>
    exact .nested line (hn rfl) (ih (hs.nest line) fun _ => rfl)

theorem started_held (o : Options) (source : Bytes) :
    (initial o source).started.held = {.source 0 o.chunk} := by
  show (Builder.start 0 0 0 0).held o.chunk + 0 = _
  rw [Builder.held_start, Multiset.add_zero]

theorem mainFunction_grown (o : Options) (source : Bytes) :
    Grown (some maxNesting) (initial o source).started (mainFunction (initial o source)) := by
  rw [mainFunction_started]
  exact (Acts.nesting maxNesting).grown (started_clean o source) fun _ => rfl

end Compile

open Compile

/-- Each object that is stored is recorded once, and nothing else is. After a compilation that
succeeds the record is what the main function holds with all functions nested in it, and after one
that fails it is what was stored in the functions that were under construction and in those that
were finished. -/
theorem run_stores (o : Options) (source : Bytes) : Multiset.ofList (run o source).stores.toList =
    match (run o source).result with
    | .ok p => held 0 p
    | .error _ => (final (mainFunction (initial o source))).held := by
  have hgrown := mainFunction_grown o source
  have hstart : Multiset.ofList (initial o source).started.stores.toList = {.source 0 o.chunk} :=
    rfl
  have hrecord {t : State} (h : Accounts (initial o source).started t) :
      Multiset.ofList t.stores.toList = t.held := by
    unfold Accounts at h
    rw [started_held, hstart, add_comm] at h
    exact add_left_cancel h
  unfold run
  generalize mainFunction (initial o source) = r at hgrown ⊢
  cases r with
  | error e t => exact hrecord (Reaches.accounts hgrown)
  | ok a t =>
    have ht : Enlarges (some maxNesting) _ t := hgrown
    have houter : t.outer = [] := List.map_eq_nil_iff.1 ht.outer
    refine (hrecord ht.accounts).trans ?_
    show t.held = held 0 (t.fn.prototype t.lexer.source)
    have hid : t.fn.id = 0 := ht.id
    rw [← hid, Builder.held_prototype]
    unfold State.held
    rw [houter]
    exact add_zero _

end LuaChunk
