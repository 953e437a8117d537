import FishRpc.Lib.CString

/-!
This module contains `TcpAddr`, an address as text together with a port, and how it is made from the
`sockaddr_in` that `accept` fills in or from text. `inetNtop` and `inetPton` are those of the C library.
-/

namespace Fish

structure Sockaddr where
  sinAddr : Fin 4 → Byte
  sinPort : BitVec 16

structure TcpAddr where
  ip : List Byte
  port : Int
  deriving DecidableEq

namespace TcpAddr

-- '.' is 46 and '0' is 48
def dot : Byte := 46
def digit (n : Nat) : Byte := BitVec.ofNat 8 (48 + n)

def ntohs (x : BitVec 16) : BitVec 16 := x.extractLsb' 0 8 ++ x.extractLsb' 8 8

def decimal (b : Byte) : List Byte :=
  let n := b.toNat
  if n < 10 then
    [digit n]
  else if n < 100 then
    [digit (n / 10), digit (n % 10)]
  else
    [digit (n / 100), digit (n / 10 % 10), digit (n % 10)]

def inetNtop (sinAddr : Fin 4 → Byte) : List Byte :=
  [dot].intercalate ((List.ofFn sinAddr).map decimal)

-- digits without a leading zero
def octet (text : List Byte) : Option Byte :=
  let n := text.foldl (fun n b => n * 10 + (b.toNat - 48)) 0
  if text = [] ∨ ¬text.all (fun b => 48 ≤ b.toNat ∧ b.toNat ≤ 57) then
    none
  else if 1 < text.length ∧ text.head? = some (digit 0) then
    none
  else if 255 < n then
    none
  else
    some (BitVec.ofNat 8 n)

def inetPton (text : List Byte) : Option (List Byte) :=
  let parts := text.splitOn dot
  if parts.length = 4 then parts.mapM octet else none

-- without an argument
def default : TcpAddr where
  ip := []
  port := -1

def avlid (ip : List Byte) (port : Int) : Bool :=
  if inetPton (CString.cStr ip) = none then false
  else if port > 65536 ∨ port ≤ 0 then false
  else true

-- `none` if the constructor throws
def ofSockaddr (addr : Sockaddr) : Option TcpAddr :=
  let ip := inetNtop addr.sinAddr
  let port : Int := (ntohs addr.sinPort).toNat
  if avlid ip port then some { ip := ip, port := port } else none

def ofIpPort (str : List Byte) (port : Int) : Option TcpAddr :=
  if avlid str port then some { ip := str, port := port } else none

-- ':' is 58
def colon : Byte := 58

def ofString (str : List Byte) : Option TcpAddr :=
  let iter := str.findIdx fun b => b == colon
  if iter < str.length then
    let ip := str.take iter
    let portStr := str.drop (iter + 1)
    let port := CString.atoi (CString.cStr portStr)
    if avlid ip port then some { ip := ip, port := port } else none
  else
    none

def htons (x : BitVec 16) : BitVec 16 := x.extractLsb' 0 8 ++ x.extractLsb' 8 8

-- `sin_port` in `createListenSocket` and `createConnection`
def sinPort (addr : TcpAddr) : BitVec 16 := htons (BitVec.ofInt 16 addr.port)

end TcpAddr
end Fish
