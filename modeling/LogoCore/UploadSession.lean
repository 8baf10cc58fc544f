import LogoCore.Loader

namespace LogoCore.Upload

open Channel

structure Session where
  uploader : Uploader
  toLoader : List (List UInt8)
  toHost : List (List UInt8)
  loader : Loader

inductive SessionEvent where
  | written
  | unreachable
  | readFailed
  | hostReads
  | loaderServes
  | outbound (f : Fault)
  | inbound (f : Fault)

namespace Session

variable (cfg : Config) (blk : UInt32) (answer : List UInt8 → List UInt8)

/-- The device may be left in any state by what happened before. -/
def start (ld : Loader) : Session := ⟨.start cfg, [], [], ld⟩

def step (s : Session) : SessionEvent → Session
  | .written =>
    match s.uploader.state with
    | .writing _ payload _ =>
      { s with uploader := s.uploader.step cfg .written, toLoader := s.toLoader ++ [payload] }
    | _ => s
  | .unreachable => { s with uploader := s.uploader.step cfg .unreachable }
  | .readFailed => { s with uploader := s.uploader.step cfg .readFailed }
  | .hostReads =>
    match s.toHost with
    | d :: ds => { s with uploader := s.uploader.step cfg (.datagram 0 d), toHost := ds }
    | [] => s
  | .loaderServes =>
    match s.toLoader with
    | d :: ds => { s with loader := (s.loader.serve blk answer d).1
                          toLoader := ds
                          toHost := s.toHost ++ [(s.loader.serve blk answer d).2] }
    | [] => s
  | .outbound f => { s with toLoader := f.apply s.toLoader }
  | .inbound f => { s with toHost := f.apply s.toHost }

def Enabled (s : Session) : SessionEvent → Prop
  | .written => s.uploader.Enabled .written
  | .unreachable => s.uploader.Enabled .unreachable
  | .readFailed => s.uploader.Enabled .readFailed
  | .hostReads => s.uploader.state.isReading = true ∧ s.toHost ≠ []
  | .loaderServes => s.toLoader ≠ []
  | .outbound _ | .inbound _ => True

instance (s : Session) : (e : SessionEvent) → Decidable (s.Enabled e)
  | .written => inferInstanceAs (Decidable (s.uploader.Enabled .written))
  | .unreachable => inferInstanceAs (Decidable (s.uploader.Enabled .unreachable))
  | .readFailed => inferInstanceAs (Decidable (s.uploader.Enabled .readFailed))
  | .hostReads => inferInstanceAs (Decidable (_ ∧ _))
  | .loaderServes => inferInstanceAs (Decidable (_ ≠ _))
  | .outbound _ | .inbound _ => inferInstanceAs (Decidable True)

end Session

def sessionMachine (cfg : Config) (blk : UInt32) (answer : List UInt8 → List UInt8) :
    Machine Session SessionEvent :=
  ⟨Session.Enabled, Session.step cfg blk answer⟩

section

variable (cfg : Config) (blk : UInt32) (answer : List UInt8 → List UInt8)

instance (s : Session) (e : SessionEvent) : Decidable ((sessionMachine cfg blk answer).enabled s e) :=
  inferInstanceAs (Decidable (s.Enabled e))

theorem Session.step_uploader {s : Session} {e : SessionEvent} (he : s.Enabled e) :
    (s.step cfg blk answer e).uploader = s.uploader ∨
      ∃ e', s.uploader.Enabled e' ∧ (s.step cfg blk answer e).uploader = s.uploader.step cfg e' := by
  cases e with
  | written =>
    refine .inr ⟨.written, he, ?_⟩
    cases hs : s.uploader.state <;> simp [Session.step, Uploader.step, hs]
  | unreachable => exact .inr ⟨.unreachable, he, rfl⟩
  | readFailed => exact .inr ⟨.readFailed, he, rfl⟩
  | hostReads =>
    cases hd : s.toHost with
    | nil => exact absurd hd he.2
    | cons d ds => exact .inr ⟨.datagram 0 d, he.1, by simp [Session.step, hd]⟩
  | loaderServes => cases hd : s.toLoader <;> exact .inl (by simp [Session.step, hd])
  | outbound f => exact .inl rfl
  | inbound f => exact .inl rfl

end

end LogoCore.Upload
