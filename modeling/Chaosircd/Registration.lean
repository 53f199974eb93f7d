import Chaosircd.NickHandlers

/-!
# Registration of local users

A connection registers as a user when it has sent `NICK` and `USER`.  The check
that the nick is free is the first step; the daemon may then wait for the client
to answer a cookie and for the authentication service, and registers the user
when the last answer is in.
-/

namespace Chaosircd

/-- What the hooks of the registration steps decide: to wait for the cookie, to
wait for the authentication service, to refuse. -/
structure LoginHooks where
  cookie : Bool
  auth : Bool
  refuse : Bool
  deriving DecidableEq

namespace LoginHooks

/-- No hook delays or refuses a registration. -/
def none : LoginHooks :=
  ⟨false, false, false⟩

/-- The authentication service is asked. -/
def asksAuth : LoginHooks :=
  ⟨false, true, false⟩

end LoginHooks

namespace Ircd

/-- `lclient_set_name`. -/
def lclientSetName (ircd : Ircd) (lcptr : Nat) (name : CString) : Ircd :=
  ircd.updateLclient lcptr (·.setName name)

/-- `lclient_register`. -/
def lclientRegister (ircd : Ircd) (id : Nat) (hooks : LoginHooks) : Ircd :=
  match ircd.lclient? id with
  | none => ircd
  | some lcptr =>
      match lcptr.user with
      | none => ircd
      | some user =>
          if lcptr.type = .unknown ∧ ¬ hooks.refuse then
            ircd.clientNewLocal (.user user) lcptr
          else ircd

/-- `lclient_handshake`; an invalid user name closes the connection. -/
def lclientHandshake (ircd : Ircd) (id : Nat) (hooks : LoginHooks) : Ircd :=
  match ircd.lclient? id with
  | none => ircd
  | some lcptr =>
      match lcptr.user with
      | none => ircd
      | some user =>
          if !charsValidNick lcptr.name then ircd
          else if !charsValidUser user.name then
            { ircd with
              lclients := ircd.lclients.filter fun other => other.id ≠ id }
          else if hooks.auth then
            ircd.updateLclient id fun lcptr => { lcptr with authPending := true }
          else ircd.lclientRegister id hooks

/-- `lclient_login`. -/
def lclientLogin (ircd : Ircd) (id : Nat) (hooks : LoginHooks) : Ircd :=
  match ircd.lclient? id with
  | none => ircd
  | some lcptr =>
      if ircd.clientFindNick lcptr.name ≠ none then
        ircd.updateLclient id (·.setName [])
      else if hooks.cookie then
        ircd.updateLclient id fun lcptr => { lcptr with cookiePending := true }
      else ircd.lclientHandshake id hooks

/-- `mr_nick`: the nick is truncated and cut at the first tilde. -/
def mrNick (ircd : Ircd) (id : Nat) (nickArg : CString) (hooks : LoginHooks) :
    Ircd :=
  match ircd.lclient? id with
  | none => ircd
  | some lcptr =>
      let nick := (strlcpy nickArg (nickLen + 1)).takeWhile (· ≠ '~')
      if lcptr.name = [] then
        let named := ircd.lclientSetName id nick
        if lcptr.user ≠ none then named.lclientLogin id hooks else named
      else ircd

/-- `mr_user`; the identifier that `user_uid` draws is a parameter. -/
def mrUser (ircd : Ircd) (id : Nat) (userArg uid : CString)
    (hooks : LoginHooks) : Ircd :=
  match ircd.lclient? id with
  | none => ircd
  | some lcptr =>
      if lcptr.user = none then
        let user : User := ⟨'~' :: strlcpy userArg 16, uid⟩
        let known := ircd.updateLclient id fun lcptr =>
          { lcptr with user := some user }
        if lcptr.name ≠ [] then known.lclientLogin id hooks else known
      else ircd

/-- The answer to the cookie: `mr_pong` of the cookie module. -/
def cookieDone (ircd : Ircd) (id : Nat) (hooks : LoginHooks) : Ircd :=
  match ircd.lclient? id with
  | none => ircd
  | some lcptr =>
      if lcptr.type = .unknown ∧ lcptr.cookiePending then
        (ircd.updateLclient id fun lcptr =>
          { lcptr with cookiePending := false }).lclientHandshake id hooks
      else ircd

/-- The answer of the authentication service. -/
def authDone (ircd : Ircd) (id : Nat) (hooks : LoginHooks) : Ircd :=
  match ircd.lclient? id with
  | none => ircd
  | some lcptr =>
      if lcptr.authPending then
        (ircd.updateLclient id fun lcptr =>
          { lcptr with authPending := false }).lclientRegister id hooks
      else ircd

end Ircd

end Chaosircd
