import FishRpc.Lib.Monitor
import FishRpc.Registry.Impl.RpcRegistry

/-!
This module contains `providers_` under `providers_mut_`: any number of threads at the end of
`providerNew`, where the size of the vector is read and the record is added in steps of their own.
-/

namespace Fish

open Monitor (Body)

namespace ProviderTable

def body (mes : ProviderMes) : Body (List ProviderMes) Unit :=
  .access id fun providers =>
    let mes := { mes with id := BitVec.ofNat 16 providers.length }
    .access (fun providers => providers ++ [mes]) fun _ => .ret ()

end ProviderTable

abbrev ProviderTable (T : Type) : Type := Monitor T (List ProviderMes) ProviderMes Unit

namespace ProviderTable

variable {T : Type} [DecidableEq T]

def new : ProviderTable T := Monitor.init []

def Step (s : ProviderTable T) (e : T × Monitor.Action ProviderMes) (s' : ProviderTable T) : Prop :=
  Monitor.Step body s e s'

end ProviderTable
end Fish
